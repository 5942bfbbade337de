import PekerOS.Fs.Pafs.Locking
import PekerOS.Proc.Streams

/-!
# What is written to a descriptor

`sys_open` hands out the lowest free number, and `sys_write_fd` prints what is written to 1 and 2 on
the console. A file that got another number gets what is written to it, and keeps it until somebody
writes to the file again.

## Main definitions

* `HasBytes`: bytes of a file, in blocks of its own
* `Event.Spares`: an event writes to other files only
* `WriteReaches`: a write calls that of the file and is read back later

## Main results

* `write_reaches`: which descriptors a file is written through
-/

namespace PekerOS

open Pafs (Kernel Inv FileSizes OnlyFile byteAt pafsVfsRead pafsVfsWrite pafsTypeFile fileBytes)

/-- The file has these `n` bytes at an offset. -/
structure HasBytes (fs : Pafs.State) (ino off n : ℕ) (data : ℕ → Byte) : Prop where
  type : (fs.inode ino).type = pafsTypeFile
  size : n = 0 ∨ off + n ≤ (fs.inode ino).size.toNat
  bytes : ∀ j < n, fs.block ino ((off + j) / 512) ≠ 0#32 ∧ byteAt fs ino (off + j) = data j

/-- The event changes no PAFS file, or only another one: a write through a descriptor of that. -/
def Event.Spares (ino : ℕ) (s : System) : Event → Prop
  | .pafs .. => False
  | .writeFd p fd .. => ∀ node, (s.task p).node? fd = some node → node.write = some .pafsVfsWrite →
      node.inode.toNat ≠ ino
  | _ => True

/-- A write of `size` bytes to a descriptor of the file calls `pafs_vfs_write` at the offset of the
descriptor, which moves on by what that returns; and these bytes are read back as long as nothing else is
written to the file. -/
structure WriteReaches (s : System) (pid : ℕ) (fd : Word) (node : VfsNode) (size : Word)
    (buf : ℕ → Byte) (other : Word) : Prop where
  kernel : (sysWriteFd s.kernel (s.task pid) fd size buf other).1 =
    (pafsVfsWrite s.kernel node.inode.toNat ((s.task pid).fdOffset.get fd.toNat) size buf).1
  reply : (sysWriteFd s.kernel (s.task pid) fd size buf other).2.2 = ⟨BitVec.ofNat 32
    (pafsVfsWrite s.kernel node.inode.toNat ((s.task pid).fdOffset.get fd.toNat) size buf).2, []⟩
  offset : (sysWriteFd s.kernel (s.task pid) fd size buf other).2.1.fdOffset.get fd.toNat =
    (s.task pid).fdOffset.get fd.toNat + BitVec.ofNat 32
      (pafsVfsWrite s.kernel node.inode.toNat ((s.task pid).fdOffset.get fd.toNat) size buf).2
  later : ∀ es, Steps (fun s e => (sysStep s e).1) (Event.Spares node.inode.toNat)
      (sysStep s (.writeFd pid fd size buf other)).1 es →
    let written := (pafsVfsWrite s.kernel node.inode.toNat ((s.task pid).fdOffset.get fd.toNat) size buf).2
    (pafsVfsRead (sysRun (sysStep s (.writeFd pid fd size buf other)).1 es).kernel node.inode.toNat
        ((s.task pid).fdOffset.get fd.toNat) (BitVec.ofNat 32 written)).2 =
      (List.range written).map buf

section Bytes

variable {fs fs' : Pafs.State} {ino other off n : ℕ} {data : ℕ → Byte}

/-- A change of another file. -/
theorem HasBytes.onlyFile (h : HasBytes fs ino off n data) (ho : OnlyFile other fs fs')
    (hne : ino ≠ other) : HasBytes fs' ino off n data := by
  have hinode := ho.inode ino hne
  refine ⟨by rw [hinode]; exact h.type, by rw [hinode]; exact h.size, fun j hj => ?_⟩
  obtain ⟨hblock, hbyte⟩ := h.bytes j hj
  have hsame : fs'.block ino ((off + j) / 512) = fs.block ino ((off + j) / 512) := by
    rw [Pafs.State.block, hinode]
    rfl
  refine ⟨hsame ▸ hblock, ?_⟩
  rw [← hbyte, byteAt, hsame, ho.data ino hne _ hblock, byteAt]

/-- They are what is read there. -/
theorem HasBytes.read {k : Kernel} {offset : Word} (h : HasBytes k.fs ino offset.toNat n data)
    (hsizes : FileSizes k.fs) (hn : offset.toNat + n ≤ 7168) :
    (pafsVfsRead k ino offset (BitVec.ofNat 32 n)).2 = (List.range n).map data := by
  have hword : (BitVec.ofNat 32 n).toNat = n := by
    rw [BitVec.toNat_ofNat]
    omega
  rw [Pafs.pafsVfsRead_eq hsizes h.type _ _ (by rw [hword]; omega), Pafs.drop_take_fileBytes, hword]
  have hlen : min n ((k.fs.inode ino).size.toNat - offset.toNat) = n := by
    have := h.size
    omega
  rw [hlen]
  exact List.map_congr_left fun j hj => (h.bytes j (List.mem_range.mp hj)).2

end Bytes

section Systems

variable {s : System} {pid ino off n : ℕ} {fd size other : Word} {node : VfsNode} {buf data : ℕ → Byte}

/-- An event that spares the file leaves its bytes. -/
theorem HasBytes.step (h : HasBytes s.kernel.fs ino off n data) (hinv : SysInv s) {e : Event}
    (he : e.Spares ino s) : HasBytes (sysStep s e).1.kernel.fs ino off n data := by
  cases e with
  | pafs op hop => exact he.elim
  | createTask p => exact h
  | openNode p node made => exact h
  | socketNode p node made => exact h
  | close p fd => exact h
  | read p fd size other =>
    have hfs := fs_sysRead s.kernel (s.task p) fd size other
    exact hfs.symm ▸ h
  | writeFd p fd size buf other =>
    change HasBytes (sysWriteFd s.kernel (s.task p) fd size buf other).1.fs ino off n data
    unfold sysWriteFd
    split
    · exact h
    · split
      · exact h
      · next node hnode =>
        dsimp only
        cases hw : node.write with
        | none => simpa only [vfsWrite, hw] using h
        | some f =>
          cases f with
          | socketWrite => simpa only [vfsWrite, hw] using h
          | pafsVfsWrite =>
            have ho := (hinv.inv.vfsWrite node.inode.toNat ((s.task p).fdOffset.get fd.toNat) size buf).2
            simpa only [vfsWrite, hw] using h.onlyFile ho (he node hnode hw).symm

theorem HasBytes.run {es : List Event} (h : HasBytes s.kernel.fs ino off n data) (hinv : SysInv s)
    (hes : Steps (fun s e => (sysStep s e).1) (Event.Spares ino) s es) :
    HasBytes (sysRun s es).kernel.fs ino off n data ∧ SysInv (sysRun s es) := by
  induction es generalizing s with
  | nil => exact ⟨h, hinv⟩
  | cons e es ih => exact ih (h.step hinv hes.1) (hinv.step e) hes.2

/-- The call of `pafs_vfs_write` shows in the trace. -/
theorem pafsVfsWrite_ne (k : Kernel) (ino : ℕ) (offset size : Word) (buffer : ℕ → Byte) :
    (pafsVfsWrite k ino offset size buffer).1 ≠ k := by
  obtain ⟨k₁, hsection, hunlock⟩ := Pafs.pafsVfsWrite_section k ino offset size buffer
  obtain ⟨ms, htrace, -⟩ := hsection.trace
  intro heq
  have hlen := congrArg (fun k : Kernel => k.trace.length) (hunlock.symm.trans heq)
  change (k₁.trace ++ [_]).length = k.trace.length at hlen
  rw [htrace, show k.lock.trace = k.trace ++ [_] from rfl] at hlen
  simp only [List.length_append, List.length_singleton] at hlen
  omega

/-- A write that is not taken for the console reaches the file. -/
theorem writeReaches (hinv : SysInv s) (hnode : node.IsPafs ino)
    (ht : (s.kernel.fs.inode ino).type = pafsTypeFile) (hopen : (s.task pid).node? fd = some node)
    (hfd : fd ≠ 1#32 ∧ fd ≠ 2#32) (size : Word) (buf : ℕ → Byte) (other : Word) :
    WriteReaches s pid fd node size buf other := by
  obtain ⟨hlt, hget⟩ := Task.node?_eq_some.mp hopen
  -- the offset of a PAFS descriptor is within a file's size, so the sum does not wrap
  have hoff := ((hinv.tasks pid) _ _ hget).2 hnode.write
  have hle := @Pafs.pafsVfsWrite_le ino buf s.kernel ((s.task pid).fdOffset.get fd.toNat) hoff size
  have hstep : sysWriteFd s.kernel (s.task pid) fd size buf other =
      let r := pafsVfsWrite s.kernel ino ((s.task pid).fdOffset.get fd.toNat) size buf
      (r.1, (s.task pid).advance fd node (BitVec.ofNat 32 r.2), ⟨BitVec.ofNat 32 r.2, []⟩) := by
    rw [sysWriteFd, if_neg (not_or.mpr hfd), hopen]
    simp only [vfsWrite, hnode.write, hnode.inode]
  have hat : OpenAt s pid fd node ((s.task pid).fdOffset.get fd.toNat).toNat := ⟨hopen, rfl⟩
  have hmoved := (hat.advance
    (k := (pafsVfsWrite s.kernel ino ((s.task pid).fdOffset.get fd.toNat) size buf).1)
    hnode.flags_ne hle).2
  rw [System.task_setTask_self] at hmoved
  have hsum : ((s.task pid).fdOffset.get fd.toNat + BitVec.ofNat 32
      (pafsVfsWrite s.kernel ino ((s.task pid).fdOffset.get fd.toNat) size buf).2).toNat =
      ((s.task pid).fdOffset.get fd.toNat).toNat +
        (pafsVfsWrite s.kernel ino ((s.task pid).fdOffset.get fd.toNat) size buf).2 := by
    rw [BitVec.toNat_add, BitVec.toNat_ofNat]
    omega
  obtain rfl := hnode.inode
  refine ⟨by rw [hstep], by rw [hstep], ?_, fun es hes => ?_⟩
  · rw [hstep]
    exact BitVec.eq_of_toNat_eq (hmoved.trans hsum.symm)
  · -- the bytes are in the file, and stay there
    have hhas : HasBytes (sysStep s (.writeFd pid fd size buf other)).1.kernel.fs node.inode.toNat
        ((s.task pid).fdOffset.get fd.toNat).toNat
        (pafsVfsWrite s.kernel node.inode.toNat ((s.task pid).fdOffset.get fd.toNat) size buf).2 buf := by
      have hwritten := @Pafs.pafsVfsWrite_written _ _ ((s.task pid).fdOffset.get fd.toNat) size buf
        hinv.inv ht
      have hsize := @Pafs.pafsVfsWrite_size _ _ ((s.task pid).fdOffset.get fd.toNat) size buf ht
      simp only [sysStep, hstep]
      refine ⟨((hinv.inv.vfsWrite _ _ size buf).2.type).trans ht, .inr ?_, hwritten⟩
      exact hsum.symm.le.trans hsize
    obtain ⟨hlater, hinv'⟩ := hhas.run (hinv.step _) hes
    exact hlater.read hinv'.sizes hle

/-- A write to descriptor 1 or 2 does not. -/
theorem not_writeReaches (hconsole : fd = 1#32 ∨ fd = 2#32) (s : System) (pid : ℕ) (node : VfsNode)
    (size : Word) (buf : ℕ → Byte) (other : Word) : ¬WriteReaches s pid fd node size buf other := by
  intro h
  have hkernel := h.kernel
  rw [sysWriteFd, if_pos hconsole] at hkernel
  exact pafsVfsWrite_ne _ _ _ _ _ hkernel.symm

end Systems

/-- **Writes reach their file** exactly through the descriptors other than 1 and 2, whatever happened
before. -/
theorem write_reaches {s : System} (hs : SysReachable s) {pid : ℕ} {fd : Word} {node : VfsNode}
    (hnode : node.IsPafs node.inode.toNat) (ht : (s.kernel.fs.inode node.inode.toNat).type = pafsTypeFile)
    (hopen : (s.task pid).node? fd = some node) (size : Word) (buf : ℕ → Byte) (other : Word) :
    WriteReaches s pid fd node size buf other ↔ fd ≠ 1#32 ∧ fd ≠ 2#32 := by
  refine ⟨fun h => not_or.mp fun hconsole => ?_, fun hfd => ?_⟩
  · exact not_writeReaches hconsole s pid node size buf other h
  · exact writeReaches hs.inv hnode ht hopen hfd size buf other

/-- A new file in a fresh root, opened as descriptor 0. -/
theorem write_reaches_small :
    let s := sysRun ⟨Pafs.pafsFormat Pafs.ramdiskKernel, fun _ => newTask⟩
      [.pafs (.create 0 ⟨[97#8], by decide⟩ false) trivial, .openNode 0 fileNode fileNode_isPafs.wellMade]
    WriteReaches s 0 0#32 fileNode 3#32 (fun k => BitVec.ofNat 8 k) 0#32 := by
  intro s
  exact (write_reaches (s := s) ⟨_, _, rfl⟩ fileNode_isPafs (by decide +kernel) (by decide +kernel)
    _ _ _).mpr ⟨by decide, by decide⟩

/-- Opened twice, as descriptors 0 and 1: what is written to 1 does not get there. -/
theorem write_to_one_lost :
    let s := sysRun ⟨Pafs.pafsFormat Pafs.ramdiskKernel, fun _ => newTask⟩
      [.pafs (.create 0 ⟨[97#8], by decide⟩ false) trivial, .openNode 0 fileNode fileNode_isPafs.wellMade,
        .openNode 0 fileNode fileNode_isPafs.wellMade]
    (s.kernel.fs.inode 1).type = pafsTypeFile ∧ (s.task 0).node? 1#32 = some fileNode ∧
      ¬WriteReaches s 0 1#32 fileNode 3#32 (fun k => BitVec.ofNat 8 k) 0#32 := by
  intro s
  exact ⟨by decide +kernel, by decide +kernel, not_writeReaches (.inl rfl) s 0 fileNode _ _ _⟩

end PekerOS
