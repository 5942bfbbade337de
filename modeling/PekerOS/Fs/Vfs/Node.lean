import PekerOS.Core.CString

/-!
# VFS nodes

A node is the handle of an open file or directory: its inode number, kind and length, and the
functions of the file system it belongs to. A function pointer is the name of the function it
points to.

## Main definitions

* `VfsNode`: `vfs_node_t`
* `ReadFn`, `WriteFn`: the functions a node's pointers can hold
-/

namespace PekerOS

/-- `VFS_FILE` -/
abbrev vfsFile : Word := 0x01#32
/-- `VFS_DIRECTORY` -/
abbrev vfsDirectory : Word := 0x02#32
/-- `VFS_MOUNTPOINT` -/
abbrev vfsMountpoint : Word := 0x04#32
/-- `VFS_SOCKET` -/
abbrev vfsSocket : Word := 0x08#32
/-- `VFS_SYMLINK` -/
abbrev vfsSymlink : Word := 0x10#32

/-- The functions `node->read` can point to. -/
inductive ReadFn
  | pafsVfsRead
  | ext2Read
  | socketRead
  | ataReadDevice1
deriving DecidableEq

/-- The functions `node->write` can point to. -/
inductive WriteFn
  | pafsVfsWrite
  | socketWrite
deriving DecidableEq

/-- `vfs_node_t`; a null function pointer is `none`. -/
structure VfsNode where
  name : List Byte
  flags : Word
  inode : Word
  length : Word
  read : Option ReadFn
  write : Option WriteFn
deriving DecidableEq

end PekerOS
