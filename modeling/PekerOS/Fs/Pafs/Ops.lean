import PekerOS.Core.Spinlock
import PekerOS.Fs.Pafs.State
import PekerOS.Fs.Vfs.Node

/-!
# PAFS: the operations

The entry points of `pafs.c`, each with its `spin_lock` and `spin_unlock` on every return path. The
kernel state is the file system, the interrupt flag, the two locks and a trace of moments: one for
each lock operation and one for each access to `sb`, `inodes` or `block_bitmap`, with the interrupt
flag and the lock as they are then. A disk transfer of an ATA drive takes and releases the driver's
own lock; `kmalloc` saves and restores the interrupt flag.

## Main definitions

* `Kernel`, `Moment`: the state and its trace
* `pafsCreate`, `pafsMkdir`, `pafsDelete`, `pafsWrite`, `pafsRead`: the path-free interface
* `pafsVfsRead`, `pafsVfsWrite`, `pafsVfsReaddir`, `pafsVfsFinddir`: the functions of a PAFS node
* `Op`, `step`, `run`: runs of the mutating operations
-/

namespace PekerOS.Pafs

/-- The locking state at one moment; `access` marks an access to the metadata. -/
structure Moment where
  access : Bool
  interrupts : Bool
  locked : Bool
deriving DecidableEq

structure Kernel where
  fs : State
  cpu : Cpu
  pafsLock : Spinlock
  ataLock : Spinlock
  pafsRamdiskMode : Bool
  trace : List Moment

namespace Kernel

/-- Record the present moment. -/
def log (k : Kernel) (access : Bool) : Kernel :=
  { k with trace := k.trace ++ [⟨access, k.cpu.interrupts, k.pafsLock.locked⟩] }

/-- `spin_lock(&pafs_lock)` -/
def lock (k : Kernel) : Kernel :=
  let (cpu, pafsLock) := spinLock k.cpu k.pafsLock
  { k with cpu := cpu, pafsLock := pafsLock }.log false

/-- `spin_unlock(&pafs_lock)` -/
def unlock (k : Kernel) : Kernel :=
  let (cpu, pafsLock) := spinUnlock k.cpu k.pafsLock
  { k with cpu := cpu, pafsLock := pafsLock }.log false

/-- An access to the metadata in memory. -/
def touch (k : Kernel) : Kernel := k.log true

/-- An access to the metadata that also transfers sectors: on an ATA drive each transfer is a
section of `ata_lock`. -/
def touchDisk (k : Kernel) : Kernel :=
  if k.pafsRamdiskMode then k.touch
  else
    let k := k.touch
    let (cpu, ataLock) := spinLock k.cpu k.ataLock
    let k := { k with cpu := cpu, ataLock := ataLock }.log true
    let (cpu, ataLock) := spinUnlock k.cpu k.ataLock
    { k with cpu := cpu, ataLock := ataLock }.touch

/-- A call of `kmalloc`, as far as locking sees it. -/
def kmallocSection (k : Kernel) : Kernel :=
  let (cpu, flags) := irqSave k.cpu
  let k := { k with cpu := cpu }.log false
  { k with cpu := irqRestore k.cpu flags }.log false

/-- Replace the file system. -/
def setFs (k : Kernel) (fs : State) : Kernel := { k with fs := fs }

end Kernel

/-- `pafs_create`. -/
def pafsCreate (k : Kernel) (parentIno : ℕ) (name : CString) (isDir : Bool) : Kernel × ℤ :=
  let k := k.lock.touch
  if k.fs.sb.freeInodes = 0#32 then (k.unlock, -1)
  else
    let k := k.touchDisk
    if pafsFindEntry k.fs parentIno name ≠ -1 then (k.unlock, -1)
    else
      let k := k.touch
      match findFreeInode k.fs with
      | none => (k.unlock, -1)
      | some newIno =>
        let (fs, res) := pafsAddEntry (newInode k.fs newIno isDir) parentIno name newIno
        let k := (k.setFs fs).touchDisk
        if res = 0 then
          let k := (k.setFs (pafsSaveInode k.fs newIno)).touchDisk
          (k.unlock, newIno)
        else
          -- taken back in memory; nothing is saved
          let fs := k.fs.setInode newIno { k.fs.inode newIno with type := pafsTypeFree }
          let fs := { fs with sb := { fs.sb with freeInodes := fs.sb.freeInodes + 1#32 } }
          let k := (k.setFs fs).touch
          (k.unlock, -1)

/-- `pafs_mkdir` -/
def pafsMkdir (k : Kernel) (parentIno : ℕ) (name : CString) : Kernel × ℤ :=
  pafsCreate k parentIno name true

/-- `pafs_delete` -/
def pafsDelete (k : Kernel) (parentIno : ℕ) (name : CString) : Kernel × ℤ :=
  let k := k.lock.touchDisk
  let ino := pafsFindEntry k.fs parentIno name
  if ino = -1 then (k.unlock, -1)
  else
    let ino := ino.toNat
    let k := k.touch
    if (k.fs.inode ino).type = pafsTypeDir ∧ pafsIsDirEmpty k.fs ino = false then (k.unlock, -2)
    else
      -- the entry goes when its inode is free already
      let (fs, res) := pafsRemoveEntry (releaseInode k.fs ino) parentIno name
      let fs := pafsSaveInode (pafsSaveBitmap (pafsSaveSuperblock fs)) ino
      let k := (k.setFs fs).touchDisk
      (k.unlock, res)

/-- The part of `pafs_write` after the inode is known. -/
def pafsWriteFile (k : Kernel) (ino : ℕ) (data : ℕ → Byte) (len : ℤ) : Kernel × ℤ :=
  let k := k.touch
  if (k.fs.inode ino).type ≠ pafsTypeFile then (k.unlock, -1)
  else
    let (fs, bytesWritten) := writeLoop ino data len.toNat 14 k.fs 0 0
    -- the size is that of what was written, also if the file was longer
    let fs := pafsSaveInode (fs.setSize ino (BitVec.ofNat 32 bytesWritten)) ino
    let k := (k.setFs fs).touchDisk
    (k.unlock, bytesWritten)

/-- `pafs_write`. A name the root does not hold is created first, by a call of `pafs_create` that
takes and releases the same lock. -/
def pafsWrite (k : Kernel) (name : CString) (data : ℕ → Byte) (len : ℤ) : Kernel × ℤ :=
  let k := k.lock.touchDisk
  let root := k.fs.sb.rootInode.toNat
  let ino := pafsFindEntry k.fs root name
  if ino = -1 then
    let (k, ino) := pafsCreate k root name false
    if ino = -1 then (k.unlock, -1)
    else pafsWriteFile k ino.toNat data len
  else pafsWriteFile k ino.toNat data len

/-- `pafs_read`: the return value and the bytes stored to the buffer, the terminator included. -/
def pafsRead (k : Kernel) (name : CString) (maxLen : ℤ) : Kernel × ℤ × List Byte :=
  let k := k.lock.touchDisk
  let ino := pafsFindEntry k.fs k.fs.sb.rootInode.toNat name
  if ino = -1 then (k.unlock, -1, [])
  else
    let k := k.touchDisk
    let file := k.fs.inode ino.toNat
    if file.type ≠ pafsTypeFile then (k.unlock, -1, [])
    else
      -- both are `int` here
      let totalToRead := min file.size.toInt maxLen
      let bytes := readLoop k.fs file 14 0 totalToRead.toNat
      -- a full buffer has no terminator
      let nul := if (bytes.length : ℤ) < maxLen then [0#8] else []
      (k.unlock, bytes.length, bytes ++ nul)

/-- `pafs_vfs_read` on the node of inode `ino`: the bytes copied, the return value being their
number. The sum of offset and size is taken in 32 bits. -/
def pafsVfsRead (k : Kernel) (ino : ℕ) (offset size : Word) : Kernel × List Byte :=
  let k := k.lock.touchDisk
  let file := k.fs.inode ino
  if file.type ≠ pafsTypeFile ∨ file.size = 0#32 then (k.unlock, [])
  else if file.size ≤ offset then (k.unlock, [])
  else
    let size := if file.size < offset + size then file.size - offset else size
    let blockIdx := offset.toNat / 512
    (k.unlock, vfsReadLoop k.fs file (14 - blockIdx) blockIdx (offset.toNat % 512) size.toNat)

/-- `pafs_vfs_write` on the node of inode `ino`: the number of bytes written. -/
def pafsVfsWrite (k : Kernel) (ino : ℕ) (offset size : Word) (buffer : ℕ → Byte) : Kernel × ℕ :=
  let k := k.lock.touch
  if (k.fs.inode ino).type ≠ pafsTypeFile then (k.unlock, 0)
  else
    let blockIdx := offset.toNat / 512
    let (fs, bytesWritten) :=
      vfsWriteLoop ino buffer size.toNat (14 - blockIdx) k.fs blockIdx (offset.toNat % 512) 0
    -- the size never goes down
    let newEnd := offset + BitVec.ofNat 32 bytesWritten
    let fs := if (fs.inode ino).size < newEnd then fs.setSize ino newEnd else fs
    let k := (k.setFs (pafsSaveInode fs ino)).touchDisk
    (k.unlock, bytesWritten)

/-- `pafs_vfs_readdir` on the node of inode `ino`: inode number and name of entry `index`, in the
buffer that `node->impl` points to and that the first call allocates. -/
def pafsVfsReaddir (k : Kernel) (ino : ℕ) (impl index : Word) :
    Kernel × Option (Word × List Byte) :=
  let k := if impl = 0#32 then k.kmallocSection else k
  let k := k.lock.touch
  let dir := k.fs.inode ino
  if dir.type ≠ pafsTypeDir ∨ dir.size = 0#32 then (k.unlock, none)
  else
    -- the slot of the index, with no slot skipped
    let blockIdx := index.toNat / 16
    let entryInBlock := index.toNat % 16
    if 14 * 16 ≤ index.toNat then (k.unlock, none)
    else if 14 ≤ blockIdx ∨ dir.blocks.get blockIdx = 0#32 then (k.unlock, none)
    else
      let k := k.touchDisk
      let dirData := pafsDiskRead k.fs (dir.blocks.get blockIdx).toNat
      if entryInode dirData entryInBlock = 0#32 then (k.unlock, none)
      else
        (k.unlock, some (entryInode dirData entryInBlock, (entryName dirData entryInBlock).take 27))

/-- `pafs_vfs_finddir` on the node of inode `ino`. -/
def pafsVfsFinddir (k : Kernel) (ino : ℕ) (name : CString) : Kernel × Option VfsNode :=
  let k := k.lock.touchDisk
  let found := pafsFindEntry k.fs ino name
  if found ≠ -1 then
    let k := k.kmallocSection.touch
    let target := k.fs.inode found.toNat
    (k.unlock, some
      { name := name.chars.take 127
        flags := if target.type = pafsTypeDir then vfsDirectory else vfsFile
        inode := BitVec.ofInt 32 found
        length := target.size
        read := some .pafsVfsRead
        write := some .pafsVfsWrite })
  else (k.unlock, none)

/-- `pafs_format`, which takes no lock. -/
def pafsFormat (k : Kernel) : Kernel := (k.setFs (formatState k.fs)).touchDisk

/-! ## Runs -/

/-- A call of a mutating operation, with its inode argument below 128. -/
inductive Op
  | create (parentIno : Fin 128) (name : CString) (isDir : Bool)
  | mkdir (parentIno : Fin 128) (name : CString)
  | delete (parentIno : Fin 128) (name : CString)
  | write (name : CString) (data : ℕ → Byte) (len : ℤ)
  | vfsWrite (ino : Fin 128) (offset size : Word) (buffer : ℕ → Byte)
  | format

def step (k : Kernel) : Op → Kernel
  | .create parentIno name isDir => (pafsCreate k parentIno name isDir).1
  | .mkdir parentIno name => (pafsMkdir k parentIno name).1
  | .delete parentIno name => (pafsDelete k parentIno name).1
  | .write name data len => (pafsWrite k name data len).1
  | .vfsWrite ino offset size buffer => (pafsVfsWrite k ino offset size buffer).1
  | .format => pafsFormat k

/-- The state after a sequence of calls. -/
def run (k : Kernel) (ops : List Op) : Kernel := ops.foldl step k

/-- The kernel in which `pafs_init`, having found no drive, formats its cleared RAM disk, with
interrupts enabled. -/
def ramdiskKernel : Kernel where
  fs := ⟨default, default, default, fun _ => default⟩
  cpu := ⟨true⟩
  pafsLock := ⟨false, false⟩
  ataLock := ⟨false, false⟩
  pafsRamdiskMode := true
  trace := []

/-- The states reached from a fresh `pafs_format`. -/
def Reachable (k : Kernel) : Prop := ∃ k₀ ops, k = run (pafsFormat k₀) ops

end PekerOS.Pafs
