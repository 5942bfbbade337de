import PekerOS.Fs.Pafs.Files
import PekerOS.Proc.Syscall

/-!
# Descriptors as byte streams

A descriptor on a PAFS file is a stream: what `sys_write_fd` and `sys_read` transfer does not depend
on how it is cut into calls. The offset of a descriptor moves only by what PAFS transferred, so it
stays within the 14 blocks of a file, and with it the size of every file. Between the calls of a
stream any number of calls may come that neither write nor use the descriptor.

## Main definitions

* `SysInv`: the file system invariant, and offsets and sizes within the block range
* `Event.Quiet pid fd`: the events that leave files and descriptor `fd` of task `pid` alone
* `sent`, `asked`, `chunks`: what a run writes to a descriptor, asks of it and gets from it

## Main results

* `SysInv.step`, `SysReachable.inv`: the invariant of every reachable system
* `read_step`, `write_step`: one call
* `descriptor_stream`: the stream law
-/

namespace PekerOS

open Pafs (Kernel Inv FileSizes pafsVfsRead pafsVfsWrite pafsTypeFile fileBytes missingBlocks)

/-! ## The invariant -/

/-- Nodes are well made, and the offset of a PAFS node is in the block range. -/
def Task.InRange (t : Task) : Prop :=
  ∀ fd node, t.fdTable.get fd = some node → node.WellMade ∧
    (node.write = some .pafsVfsWrite → (t.fdOffset.get fd).toNat ≤ 7168)

structure SysInv (s : System) : Prop where
  inv : Inv s.kernel.fs
  sizes : FileSizes s.kernel.fs
  tasks : ∀ pid, (s.task pid).InRange

section Tasks

variable {t : Task} {node : VfsNode} {fd : Word} {i : ℕ}

theorem VfsNode.IsSocket.wellMade (h : node.IsSocket) : node.WellMade := by
  constructor
  · simp [h.read, h.write]
  · intro hw
    rw [h.write] at hw
    exact absurd hw (by decide)

theorem Task.node?_eq_some : t.node? fd = some node ↔
    fd.toNat < 16 ∧ t.fdTable.get fd.toNat = some node := by
  have hint := BitVec.toInt_eq_toNat_cond fd
  unfold Task.node?
  split
  · next hbad =>
    constructor
    · intro h
      exact absurd h (by simp)
    · rintro ⟨hlt, -⟩
      rw [if_pos (by omega)] at hint
      omega
  · next hgood =>
    refine ⟨fun h => ⟨?_, h⟩, And.right⟩
    split at hint <;> omega

theorem Task.freeFd_eq_some : t.freeFd = some i →
    i < 16 ∧ t.fdTable.get i = none := by
  intro h
  have hmem := List.mem_of_find?_eq_some h
  have hnone := List.find?_some h
  exact ⟨List.mem_range.mp hmem, by simpa using hnone⟩

theorem newTask_inRange : newTask.InRange := by
  intro fd node h
  by_cases hlt : fd < 16
  · rw [newTask, Table.get_ofFn _ hlt] at h
    exact absurd h (by simp)
  · rw [newTask, Table.get_of_le _ (by omega)] at h
    exact absurd h (by simp)

namespace Task.InRange

theorem openNode (h : t.InRange) (hmade : node.WellMade) : (sysOpenNode t node).1.InRange := by
  unfold sysOpenNode
  split
  · next i hi =>
    have hlt := (Task.freeFd_eq_some hi).1
    intro fd node' hget
    by_cases hfd : fd = i
    · subst hfd
      dsimp only at hget ⊢
      rw [Table.get_set_self _ hlt] at hget ⊢
      obtain rfl := Option.some.inj hget
      exact ⟨hmade, fun _ => Nat.zero_le _⟩
    · dsimp only at hget ⊢
      rw [Table.get_set_ne _ hfd] at hget ⊢
      exact h fd node' hget
  · exact h

theorem socketNode (h : t.InRange) (hsock : node.IsSocket) : (sysSocketNode t node).1.InRange := by
  unfold sysSocketNode
  split
  · next i hi =>
    have hlt := (Task.freeFd_eq_some hi).1
    intro fd node' hget
    by_cases hfd : fd = i
    · subst hfd
      dsimp only at hget ⊢
      rw [Table.get_set_self _ hlt] at hget
      obtain rfl := Option.some.inj hget
      refine ⟨hsock.wellMade, fun hw => ?_⟩
      rw [hsock.write] at hw
      exact absurd hw (by decide)
    · dsimp only at hget ⊢
      rw [Table.get_set_ne _ hfd] at hget
      exact h fd node' hget
  · exact h

theorem close (h : t.InRange) (fd : Word) : (sysClose t fd).1.InRange := by
  unfold sysClose
  split
  · exact h
  · next node hnode =>
    have hlt := (Task.node?_eq_some.mp hnode).1
    intro i node' hget
    by_cases hi : i = fd.toNat
    · subst hi
      dsimp only at hget
      rw [Table.get_set_self _ hlt] at hget
      exact absurd hget (by simp)
    · dsimp only at hget ⊢
      rw [Table.get_set_ne _ hi] at hget ⊢
      exact h i node' hget

/-- Moving an offset that stays in the block range. -/
theorem advance (h : t.InRange) (hnode : t.node? fd = some node) {n : Word}
    (hn : node.write = some .pafsVfsWrite →
      (t.fdOffset.get fd.toNat).toNat + n.toNat ≤ 7168) : (t.advance fd node n).InRange := by
  obtain ⟨hlt, hfd⟩ := Task.node?_eq_some.mp hnode
  unfold Task.advance
  split
  · intro i node' hget
    obtain ⟨hmade, hoff⟩ := h i node' hget
    refine ⟨hmade, fun hw => ?_⟩
    by_cases hi : i = fd.toNat
    · subst hi
      obtain rfl := Option.some.inj (hfd.symm.trans hget)
      have hbound := hn hw
      dsimp only
      rw [Table.get_set_self _ hlt, BitVec.toNat_add]
      omega
    · dsimp only
      rw [Table.get_set_ne _ hi]
      exact hoff hw
  · exact h

end Task.InRange

end Tasks

/-! ## Dispatch -/

section Dispatch

variable {k : Kernel} {t : Task} {node : VfsNode} {fd : Word}

@[simp] theorem Pafs.fs_pafsVfsRead (k : Kernel) (ino : ℕ) (offset size : Word) :
    (pafsVfsRead k ino offset size).1.fs = k.fs := by
  unfold pafsVfsRead
  dsimp only
  split
  · simp
  · split <;> simp

/-- Reading changes no file. -/
theorem fs_sysRead (k : Kernel) (t : Task) (fd size : Word) (other : Reply) :
    (sysRead k t fd size other).1.fs = k.fs := by
  unfold sysRead vfsRead
  split
  · rfl
  · next node hnode =>
    cases node.read with
    | none => rfl
    | some f => cases f <;> simp

theorem inRange_sysRead (h : t.InRange) (k : Kernel) (fd size : Word) (other : Reply) :
    (sysRead k t fd size other).2.1.InRange := by
  unfold sysRead
  split
  · exact h
  · next node hnode =>
    refine h.advance hnode fun hw => ?_
    obtain ⟨hmade, hoff⟩ := h _ _ (Task.node?_eq_some.mp hnode).2
    rw [vfsRead, hmade.both.mp hw]
    have hle := @Pafs.pafsVfsRead_le node.inode.toNat k (t.fdOffset.get fd.toNat) (hoff hw) size
    dsimp only
    rw [BitVec.toNat_ofNat, Nat.mod_eq_of_lt (by omega)]
    exact hle

/-- Writing through a descriptor keeps files and offsets in range. -/
theorem inRange_sysWriteFd (hinv : Inv k.fs) (hsizes : FileSizes k.fs) (h : t.InRange)
    (fd size : Word) (buf : ℕ → Byte) (other : Word) :
    Inv (sysWriteFd k t fd size buf other).1.fs ∧
      FileSizes (sysWriteFd k t fd size buf other).1.fs ∧
      (sysWriteFd k t fd size buf other).2.1.InRange := by
  unfold sysWriteFd
  split
  · exact ⟨hinv, hsizes, h⟩
  split
  · exact ⟨hinv, hsizes, h⟩
  next node hnode =>
  obtain ⟨hmade, hoff⟩ := h _ _ (Task.node?_eq_some.mp hnode).2
  dsimp only
  -- only the write function of PAFS changes the disk
  by_cases hw : node.write = some .pafsVfsWrite
  · have hle := @Pafs.pafsVfsWrite_le node.inode.toNat buf k (t.fdOffset.get fd.toNat) (hoff hw) size
    rw [vfsWrite, hw]
    refine ⟨(hinv.vfsWrite _ _ _ _).1, FileSizes.vfsWrite hinv hsizes _ (hoff hw) _ _, ?_⟩
    refine h.advance hnode fun _ => ?_
    dsimp only
    rw [BitVec.toNat_ofNat, Nat.mod_eq_of_lt (by omega)]
    exact hle
  · have hsame : (vfsWrite k node (t.fdOffset.get fd.toNat) size buf other).1 = k := by
      unfold vfsWrite
      cases hwrite : node.write with
      | none => rfl
      | some f =>
        cases f with
        | pafsVfsWrite => exact absurd hwrite hw
        | socketWrite => rfl
    rw [hsame]
    exact ⟨hinv, hsizes, h.advance hnode fun h' => absurd h' hw⟩

end Dispatch

theorem Pafs.FileSizes.step {k : Kernel} (h : Inv k.fs) (hs : FileSizes k.fs) {op : Pafs.Op}
    (hop : op.ByName) : FileSizes (Pafs.step k op).fs := by
  cases op with
  | create d name isDir => exact hs.create h d.isLt name isDir
  | mkdir d name => exact hs.create h d.isLt name true
  | delete d name => exact hs.delete h d name
  | write name data len => exact hs.write h name data len
  | vfsWrite ino offset size buffer => exact hop.elim
  | format =>
    rw [Pafs.step, Pafs.fs_pafsFormat]
    exact FileSizes.format k.fs

namespace System

variable (s : System) (pid : ℕ) (t : Task)

theorem task_setTask_self : (s.setTask pid t).task pid = t := by
  simp [setTask]

theorem task_setTask_ne {p : ℕ} (h : p ≠ pid) : (s.setTask pid t).task p = s.task p := by
  simp [setTask, h]

end System

namespace SysInv

variable {s : System}

theorem setTask {k : Kernel} (hinv : Inv k.fs) (hsizes : FileSizes k.fs)
    (h : ∀ pid, (s.task pid).InRange) {pid : ℕ} {t : Task} (ht : t.InRange) :
    SysInv ({ s with kernel := k }.setTask pid t) where
  inv := hinv
  sizes := hsizes
  tasks p := by
    by_cases hp : p = pid
    · subst hp
      rw [System.task_setTask_self]
      exact ht
    · rw [System.task_setTask_ne _ _ _ hp]
      exact h p

/-- **One event keeps the invariant.** -/
theorem step (h : SysInv s) (e : Event) : SysInv (sysStep s e).1 := by
  cases e with
  | pafs op hop => exact ⟨h.inv.step op, h.sizes.step h.inv hop, h.tasks⟩
  | createTask pid => exact setTask h.inv h.sizes h.tasks newTask_inRange
  | openNode pid node made => exact setTask h.inv h.sizes h.tasks ((h.tasks pid).openNode made)
  | socketNode pid node made => exact setTask h.inv h.sizes h.tasks ((h.tasks pid).socketNode made)
  | read pid fd size other =>
    have hfs := fs_sysRead s.kernel (s.task pid) fd size other
    exact setTask (hfs.symm ▸ h.inv) (hfs.symm ▸ h.sizes) h.tasks
      (inRange_sysRead (h.tasks pid) s.kernel fd size other)
  | writeFd pid fd size buf other =>
    obtain ⟨hinv, hsizes, hrange⟩ :=
      inRange_sysWriteFd h.inv h.sizes (h.tasks pid) fd size buf other
    exact setTask hinv hsizes h.tasks hrange
  | close pid fd => exact setTask h.inv h.sizes h.tasks ((h.tasks pid).close fd)

end SysInv

/-- **The invariant holds in every reachable system.** -/
theorem SysReachable.inv {s : System} (h : SysReachable s) : SysInv s := by
  obtain ⟨k, es, rfl⟩ := h
  refine invariant_run (I := SysInv) (fun h => h.step _) ⟨?_, ?_, fun _ => newTask_inRange⟩
  · exact (Pafs.fs_pafsFormat k).symm ▸ Inv.format k.fs
  · exact (Pafs.fs_pafsFormat k).symm ▸ FileSizes.format k.fs

/-! ## Streams -/

/-- A node that `pafs_vfs_finddir` returns for inode `ino`. -/
structure VfsNode.IsPafs (node : VfsNode) (ino : ℕ) : Prop where
  read : node.read = some .pafsVfsRead
  write : node.write = some .pafsVfsWrite
  flags : node.flags = vfsFile ∨ node.flags = vfsDirectory
  inode : node.inode.toNat = ino

/-- The events that leave the files and descriptor `fd` of task `pid` alone. -/
def Event.Quiet (pid : ℕ) (fd : Word) : Event → Prop
  | .pafs .. | .writeFd .. => False
  | .createTask p => p ≠ pid
  | .openNode .. | .socketNode .. => True
  | .read p fd' .. | .close p fd' => (p, fd') ≠ (pid, fd)

/-- Descriptor `fd` of task `pid` is open on `node`, at offset `pos`. -/
def OpenAt (s : System) (pid : ℕ) (fd : Word) (node : VfsNode) (pos : ℕ) : Prop :=
  (s.task pid).node? fd = some node ∧ ((s.task pid).fdOffset.get fd.toNat).toNat = pos

section Frame

variable {s : System} {pid pos : ℕ} {fd : Word} {node : VfsNode}

theorem VfsNode.IsPafs.flags_ne {ino : ℕ} (h : node.IsPafs ino) : node.flags ≠ vfsSocket := by
  rcases h.flags with hf | hf <;> rw [hf] <;> decide

theorem VfsNode.IsPafs.wellMade {ino : ℕ} (h : node.IsPafs ino) : node.WellMade :=
  ⟨by simp [h.read, h.write], fun _ => h.flags_ne⟩

/-- What `pafs_vfs_finddir` returns. -/
theorem Pafs.isPafs_of_finddir {k : Kernel} {d : ℕ} {name : CString}
    (h : (Pafs.pafsVfsFinddir k d name).2 = some node) :
    node.IsPafs node.inode.toNat ∧ node.inode = BitVec.ofInt 32 (Pafs.pafsFindEntry k.fs d name) := by
  simp only [Pafs.pafsVfsFinddir, Pafs.Kernel.fs_touchDisk, Pafs.Kernel.fs_lock] at h
  split at h
  · obtain rfl := Option.some.inj h
    refine ⟨⟨rfl, rfl, ?_, rfl⟩, rfl⟩
    dsimp only
    split
    · exact Or.inr rfl
    · exact Or.inl rfl
  · exact absurd h (by simp)

/-- A change of another task or of another slot of the same task. -/
theorem OpenAt.of_slot {s' : System} (h : OpenAt s pid fd node pos)
    (htable : (s'.task pid).fdTable.get fd.toNat = (s.task pid).fdTable.get fd.toNat)
    (hoff : (s'.task pid).fdOffset.get fd.toNat = (s.task pid).fdOffset.get fd.toNat) :
    OpenAt s' pid fd node pos := by
  obtain ⟨hlt, hnode⟩ := Task.node?_eq_some.mp h.1
  exact ⟨Task.node?_eq_some.mpr ⟨hlt, htable.trans hnode⟩, by rw [hoff]; exact h.2⟩

theorem OpenAt.setTask_ne {p : ℕ} {k : Kernel} {t : Task} (h : OpenAt s pid fd node pos)
    (hp : pid ≠ p) : OpenAt ({ s with kernel := k }.setTask p t) pid fd node pos := by
  apply h.of_slot <;> rw [System.task_setTask_ne _ _ _ hp]

/-- A new descriptor is not one that is open. -/
theorem OpenAt.ne_freeFd {i : ℕ} (h : OpenAt s pid fd node pos)
    (hi : (s.task pid).freeFd = some i) : fd.toNat ≠ i := by
  rintro rfl
  have := (Task.freeFd_eq_some hi).2
  rw [(Task.node?_eq_some.mp h.1).2] at this
  exact absurd this (by simp)

theorem fdTable_advance (t : Task) (fd : Word) (node : VfsNode) (n : Word) :
    (t.advance fd node n).fdTable = t.fdTable := by
  unfold Task.advance
  split <;> rfl

theorem fdOffset_advance_ne (t : Task) {fd fd' : Word} (hne : fd ≠ fd') (node : VfsNode) (n : Word) :
    (t.advance fd' node n).fdOffset.get fd.toNat = t.fdOffset.get fd.toNat := by
  unfold Task.advance
  split
  · exact Table.get_set_ne _ (fun h => hne (BitVec.eq_of_toNat_eq h)) _
  · rfl

/-- **A quiet event** changes no file, and not the descriptor. -/
theorem Event.Quiet.frame {e : Event} (hq : e.Quiet pid fd) (h : OpenAt s pid fd node pos) :
    (sysStep s e).1.kernel.fs = s.kernel.fs ∧ OpenAt (sysStep s e).1 pid fd node pos := by
  cases e with
  | pafs op hop => exact hq.elim
  | writeFd p fd' size buf other => exact hq.elim
  | createTask p => exact ⟨rfl, h.setTask_ne (Ne.symm hq)⟩
  | openNode p node' made =>
    refine ⟨rfl, ?_⟩
    by_cases hp : pid = p
    · subst hp
      unfold sysStep sysOpenNode
      dsimp only
      cases hi : (s.task pid).freeFd with
      | none => apply h.of_slot <;> rw [System.task_setTask_self]
      | some i =>
        -- a free descriptor is not the one that is open
        have hne := h.ne_freeFd hi
        apply h.of_slot <;> rw [System.task_setTask_self] <;> exact Table.get_set_ne _ hne _
    · exact h.setTask_ne hp
  | socketNode p node' made =>
    refine ⟨rfl, ?_⟩
    by_cases hp : pid = p
    · subst hp
      unfold sysStep sysSocketNode
      dsimp only
      cases hi : (s.task pid).freeFd with
      | none => apply h.of_slot <;> rw [System.task_setTask_self]
      | some i =>
        have hne := h.ne_freeFd hi
        apply h.of_slot <;> rw [System.task_setTask_self]
        exact Table.get_set_ne _ hne _
    · exact h.setTask_ne hp
  | read p fd' size other =>
    refine ⟨fs_sysRead s.kernel (s.task p) fd' size other, ?_⟩
    by_cases hp : pid = p
    · subst hp
      have hne : fd ≠ fd' := fun heq => hq (by rw [heq])
      unfold sysStep sysRead
      dsimp only
      cases (s.task pid).node? fd' with
      | none => apply h.of_slot <;> rw [System.task_setTask_self]
      | some node' =>
        apply h.of_slot <;> rw [System.task_setTask_self]
        · rw [fdTable_advance]
        · -- the offset of another descriptor moves
          exact fdOffset_advance_ne _ hne _ _
    · exact h.setTask_ne hp
  | close p fd' =>
    refine ⟨rfl, ?_⟩
    by_cases hp : pid = p
    · subst hp
      have hne : fd.toNat ≠ fd'.toNat := fun heq => hq (by rw [BitVec.eq_of_toNat_eq heq])
      unfold sysStep sysClose
      dsimp only
      cases (s.task pid).node? fd' with
      | none => apply h.of_slot <;> rw [System.task_setTask_self]
      | some node' =>
        apply h.of_slot <;> rw [System.task_setTask_self] <;> exact Table.get_set_ne _ hne _
    · exact h.setTask_ne hp

end Frame

/-- A read of the descriptor with a non-negative size. -/
def Event.Reads (pid : ℕ) (fd : Word) (e : Event) : Prop :=
  ∃ size other, e = .read pid fd size other ∧ 0 ≤ size.toInt

/-- A write to the descriptor with a non-negative size. -/
def Event.Writes (pid : ℕ) (fd : Word) (e : Event) : Prop :=
  ∃ size buf other, e = .writeFd pid fd size buf other ∧ 0 ≤ size.toInt

/-- The bytes an event passes to the descriptor. -/
def Event.sent (pid : ℕ) (fd : Word) : Event → List Byte
  | .writeFd p fd' size buf _ =>
    if (p, fd') = (pid, fd) then (List.range size.toNat).map buf else []
  | _ => []

/-- The number of bytes an event asks of the descriptor. -/
def Event.asked (pid : ℕ) (fd : Word) : Event → ℕ
  | .read p fd' size _ => if (p, fd') = (pid, fd) then size.toNat else 0
  | _ => 0

/-- The concatenation of the buffers that a run writes to the descriptor. -/
def sent (pid : ℕ) (fd : Word) (es : List Event) : List Byte := es.flatMap (Event.sent pid fd)

/-- The sum of the sizes that a run reads from the descriptor. -/
def asked (pid : ℕ) (fd : Word) (es : List Event) : ℕ := (es.map (Event.asked pid fd)).sum

/-- The replies of a run to its reads of the descriptor. -/
def chunks (pid : ℕ) (fd : Word) : System → List Event → List Reply
  | _, [] => []
  | s, .read p fd' size other :: es =>
    let (s', r) := sysStep s (.read p fd' size other)
    if (p, fd') = (pid, fd) then r :: chunks pid fd s' es else chunks pid fd s' es
  | s, e :: es => chunks pid fd (sysStep s e).1 es

section Stream

variable {s : System} {pid ino pos : ℕ} {fd : Word} {node : VfsNode} {es : List Event}

theorem Event.Quiet.sent_eq {e : Event} (hq : e.Quiet pid fd) : e.sent pid fd = [] := by
  cases e with
  | writeFd => exact hq.elim
  | _ => rfl

theorem Event.Quiet.asked_eq {e : Event} (hq : e.Quiet pid fd) : e.asked pid fd = 0 := by
  cases e with
  | read p fd' size other => exact if_neg hq
  | _ => rfl

theorem Event.Quiet.chunks_eq {e : Event} (hq : e.Quiet pid fd) (s : System) (es : List Event) :
    chunks pid fd s (e :: es) = chunks pid fd (sysStep s e).1 es := by
  cases e with
  | read p fd' size other => exact if_neg hq
  | _ => rfl

/-- The offset follows what was transferred. -/
theorem OpenAt.advance {k : Kernel} {n : ℕ} (h : OpenAt s pid fd node pos)
    (hflags : node.flags ≠ vfsSocket) (hn : pos + n ≤ 7168) :
    OpenAt ({ s with kernel := k }.setTask pid ((s.task pid).advance fd node (BitVec.ofNat 32 n)))
      pid fd node (pos + n) := by
  obtain ⟨hlt, hfd⟩ := Task.node?_eq_some.mp h.1
  have hword : (BitVec.ofNat 32 n).toNat = n := by
    rw [BitVec.toNat_ofNat]
    omega
  have hint : (BitVec.ofNat 32 n).toInt = n := by
    rw [BitVec.toInt_eq_toNat_cond, hword, if_pos (by omega)]
  refine ⟨?_, ?_⟩
  · rw [System.task_setTask_self, Task.node?_eq_some, fdTable_advance]
    exact ⟨hlt, hfd⟩
  · rw [System.task_setTask_self, Task.advance, hint]
    by_cases h0 : n = 0
    · subst h0
      rw [if_neg (by simp)]
      exact h.2
    · rw [if_pos ⟨by omega, hflags⟩]
      dsimp only
      rw [Table.get_set_self _ hlt, BitVec.toNat_add, h.2, hword]
      omega

theorem length_fileBytes (fs : Pafs.State) (ino : ℕ) :
    (fileBytes fs ino).length = (fs.inode ino).size.toNat := by
  simp [fileBytes]

/-- **One read** gives the next stretch of the file and moves the offset past it. -/
theorem read_step (hsizes : FileSizes s.kernel.fs) (hnode : node.IsPafs ino)
    (ht : (s.kernel.fs.inode ino).type = pafsTypeFile) (hopen : OpenAt s pid fd node pos)
    (hpos : pos ≤ 7168) {size : Word} (hsize : 0 ≤ size.toInt) (other : Reply) :
    let bytes := ((fileBytes s.kernel.fs ino).drop pos).take size.toNat
    (sysStep s (.read pid fd size other)).2 = ⟨BitVec.ofNat 32 bytes.length, bytes⟩ ∧
      (sysStep s (.read pid fd size other)).1.kernel.fs = s.kernel.fs ∧
      OpenAt (sysStep s (.read pid fd size other)).1 pid fd node (pos + bytes.length) := by
  have hcap := hsizes ino ht
  have hlt : size.toNat < 2 ^ 31 := by
    rw [BitVec.toInt_eq_toNat_cond] at hsize
    split at hsize <;> omega
  -- the offset is the position, so the read is the stretch from there
  have hread := @Pafs.pafsVfsRead_eq ino s.kernel hsizes ht ((s.task pid).fdOffset.get fd.toNat) size
    (by rw [hopen.2]; omega)
  rw [hopen.2] at hread
  have hstep : sysRead s.kernel (s.task pid) fd size other =
      let r := pafsVfsRead s.kernel ino ((s.task pid).fdOffset.get fd.toNat) size
      (r.1, (s.task pid).advance fd node (BitVec.ofNat 32 r.2.length),
        ⟨BitVec.ofNat 32 r.2.length, r.2⟩) := by
    rw [sysRead, hopen.1]
    simp only [vfsRead, hnode.read, hnode.inode]
  have hle : pos + (((fileBytes s.kernel.fs ino).drop pos).take size.toNat).length ≤ 7168 := by
    rw [List.length_take, List.length_drop, length_fileBytes]
    omega
  refine ⟨?_, fs_sysRead s.kernel (s.task pid) fd size other, ?_⟩
  · simp only [sysStep, hstep, hread]
  · simp only [sysStep, hstep, hread]
    exact hopen.advance hnode.flags_ne hle

theorem take_add_of_take {α : Type} (l : List α) (a b : ℕ) :
    l.take (a + b) = l.take a ++ (l.drop (l.take a).length).take b := by
  rw [List.take_add, List.length_take]
  congr 2
  by_cases h : a ≤ l.length
  · rw [min_eq_left h]
  · rw [min_eq_right (by omega), List.drop_of_length_le (by omega), List.drop_length]

/-- **A run of reads**: the chunks are cut from the file one after the other. -/
theorem reads_run (hsizes : FileSizes s.kernel.fs) (hnode : node.IsPafs ino)
    (ht : (s.kernel.fs.inode ino).type = pafsTypeFile) (hopen : OpenAt s pid fd node pos)
    (hpos : pos ≤ 7168) (hes : ∀ e ∈ es, e.Reads pid fd ∨ e.Quiet pid fd) :
    let rest := (fileBytes s.kernel.fs ino).drop pos
    ((chunks pid fd s es).map Reply.bytes).flatten = rest.take (asked pid fd es) ∧
      (∀ r ∈ chunks pid fd s es, r.eax.toNat = r.bytes.length) ∧
      (sysRun s es).kernel.fs = s.kernel.fs ∧
      OpenAt (sysRun s es) pid fd node (pos + (rest.take (asked pid fd es)).length) := by
  induction es generalizing s pos with
  | nil =>
    refine ⟨rfl, fun r hr => absurd hr List.not_mem_nil, rfl, ?_⟩
    exact hopen
  | cons e es ih =>
    have hrest := fun e' he' => hes e' (List.mem_cons_of_mem e he')
    have hcap := hsizes ino ht
    rcases hes e List.mem_cons_self with ⟨size, other, rfl, hsize⟩ | hq
    · -- a read of this descriptor takes the next bytes, and the rest of the run what follows them
      obtain ⟨hreply, hfs, hopen'⟩ := read_step hsizes hnode ht hopen hpos hsize other
      have hlen : pos + (((fileBytes s.kernel.fs ino).drop pos).take size.toNat).length ≤ 7168 := by
        rw [List.length_take, List.length_drop, length_fileBytes]
        omega
      obtain ⟨hflat, heax, hfs', hopen''⟩ := ih (hfs ▸ hsizes) (hfs ▸ ht) hopen' hlen hrest
      have hchunks : chunks pid fd s (.read pid fd size other :: es) =
          (sysStep s (.read pid fd size other)).2 ::
            chunks pid fd (sysStep s (.read pid fd size other)).1 es := if_pos rfl
      have hasked : asked pid fd (.read pid fd size other :: es) = size.toNat + asked pid fd es :=
        congrArg (· + asked pid fd es) (if_pos rfl)
      rw [hfs, ← List.drop_drop] at hflat hopen''
      refine ⟨?_, ?_, hfs'.trans hfs, ?_⟩
      · rw [hchunks, hasked, List.map_cons, List.flatten_cons, hreply, hflat, take_add_of_take]
      · rw [hchunks, hreply]
        intro r hr
        rcases List.mem_cons.mp hr with rfl | hr
        · rw [BitVec.toNat_ofNat]
          exact Nat.mod_eq_of_lt (by omega)
        · exact heax r hr
      · rw [hasked, take_add_of_take, List.length_append, ← Nat.add_assoc]
        exact hopen''
    · -- another event moves neither the offset nor the file
      obtain ⟨hfs, hopen'⟩ := hq.frame hopen
      obtain ⟨hflat, heax, hfs', hopen''⟩ := ih (hfs ▸ hsizes) (hfs ▸ ht) hopen' hpos hrest
      have hasked : asked pid fd (e :: es) = asked pid fd es := by
        rw [asked, List.map_cons, List.sum_cons, hq.asked_eq, Nat.zero_add, asked]
      rw [hfs] at hflat hopen''
      rw [hq.chunks_eq, hasked]
      exact ⟨hflat, heax, hfs'.trans hfs, hopen''⟩

/-- **One write** at the end of the file appends what fits, if there are blocks for it. -/
theorem write_step (hinv : SysInv s) (hnode : node.IsPafs ino)
    (ht : (s.kernel.fs.inode ino).type = pafsTypeFile) (hfd : fd ≠ 1#32 ∧ fd ≠ 2#32)
    (hopen : OpenAt s pid fd node pos) (hpos : (s.kernel.fs.inode ino).size.toNat = pos)
    (hholes : Pafs.NoHoles s.kernel.fs ino) {n : ℕ} {size : Word} (buf : ℕ → Byte) (other : Word)
    (hn : min (pos + size.toNat) 7168 ≤ 512 * n)
    (henough : (missingBlocks s.kernel.fs ino n).card ≤
      Bitmap.clearCount s.kernel.fs.blockBitmap 18 4096) :
    let s' := (sysStep s (.writeFd pid fd size buf other)).1
    fileBytes s'.kernel.fs ino = fileBytes s.kernel.fs ino ++
        (List.range (min size.toNat (7168 - pos))).map buf ∧
      OpenAt s' pid fd node (pos + min size.toNat (7168 - pos)) ∧
      (s'.kernel.fs.inode ino).type = pafsTypeFile ∧
      Pafs.NoHoles s'.kernel.fs ino ∧
      (missingBlocks s'.kernel.fs ino n).card ≤
        Bitmap.clearCount s'.kernel.fs.blockBitmap 18 4096 := by
  have hcap := hinv.sizes ino ht
  have hoff := hopen.2
  have hstep : sysWriteFd s.kernel (s.task pid) fd size buf other =
      let r := pafsVfsWrite s.kernel ino ((s.task pid).fdOffset.get fd.toNat) size buf
      (r.1, (s.task pid).advance fd node (BitVec.ofNat 32 r.2), ⟨BitVec.ofNat 32 r.2, []⟩) := by
    rw [sysWriteFd, if_neg (not_or.mpr hfd), hopen.1]
    simp only [vfsWrite, hnode.write, hnode.inode]
  obtain ⟨hret, hbytes, hholes', henough'⟩ :=
    @Pafs.pafsVfsWrite_spliced ino s.kernel ((s.task pid).fdOffset.get fd.toNat) size buf n
      hinv.inv hinv.sizes ht hholes (by omega) (by rw [hoff]; exact hn) henough
  have htype := (hinv.inv.vfsWrite ino ((s.task pid).fdOffset.get fd.toNat) size buf).2.type
  simp only [sysStep, hstep]
  -- the offset is the size, so the bytes are appended
  rw [hoff] at hret hbytes
  rw [List.take_of_length_le (by rw [length_fileBytes]; omega),
    List.drop_of_length_le (by rw [length_fileBytes]; omega), List.append_nil] at hbytes
  refine ⟨hbytes, ?_, htype.trans ht, hholes', henough'⟩
  rw [hret]
  exact hopen.advance hnode.flags_ne (by omega)

/-- Cutting a middle part where the whole is cut anyway. -/
theorem take_append_take {α : Type} {c : ℕ} (a b l : List α) (h : a.length ≤ c) :
    (a ++ b.take (c - a.length) ++ l).take c = (a ++ b ++ l).take c := by
  simp only [List.take_append, List.length_append, List.length_take, List.take_take, min_self]
  congr 2
  omega

/-- **A run of writes** to a file that ends where the descriptor stands. -/
theorem writes_run (hinv : SysInv s) (hnode : node.IsPafs ino)
    (ht : (s.kernel.fs.inode ino).type = pafsTypeFile) (hfd : fd ≠ 1#32 ∧ fd ≠ 2#32)
    (hopen : OpenAt s pid fd node pos) (hpos : (s.kernel.fs.inode ino).size.toNat = pos)
    (hholes : Pafs.NoHoles s.kernel.fs ino) {n : ℕ}
    (hn : min (pos + (sent pid fd es).length) 7168 ≤ 512 * n)
    (henough : (missingBlocks s.kernel.fs ino n).card ≤
      Bitmap.clearCount s.kernel.fs.blockBitmap 18 4096)
    (hes : ∀ e ∈ es, e.Writes pid fd ∨ e.Quiet pid fd) :
    fileBytes (sysRun s es).kernel.fs ino =
      (fileBytes s.kernel.fs ino ++ sent pid fd es).take 7168 := by
  induction es generalizing s pos with
  | nil =>
    have hcap := hinv.sizes ino ht
    change fileBytes s.kernel.fs ino = (fileBytes s.kernel.fs ino ++ []).take 7168
    rw [List.append_nil, List.take_of_length_le (by rw [length_fileBytes]; omega)]
  | cons e es ih =>
    have hcap := hinv.sizes ino ht
    have hrest := fun e' he' => hes e' (List.mem_cons_of_mem e he')
    have hsent : sent pid fd (e :: es) = e.sent pid fd ++ sent pid fd es := List.flatMap_cons
    rw [hsent, List.length_append] at hn
    rcases hes e List.mem_cons_self with ⟨size, buf, other, rfl, -⟩ | hq
    · have hbuf : (Event.writeFd pid fd size buf other).sent pid fd =
          (List.range size.toNat).map buf := if_pos rfl
      rw [hbuf, List.length_map, List.length_range] at hn
      have hfirst : min (pos + size.toNat) 7168 ≤ 512 * n := by omega
      obtain ⟨hbytes, hopen', ht', hholes', henough'⟩ :=
        write_step hinv hnode ht hfd hopen hpos hholes buf other hfirst henough
      have hlen : ((sysStep s (.writeFd pid fd size buf other)).1.kernel.fs.inode ino).size.toNat =
          pos + min size.toNat (7168 - pos) := by
        rw [← length_fileBytes, hbytes, List.length_append, length_fileBytes, hpos,
          List.length_map, List.length_range]
      have hrun := ih (hinv.step _) ht' hopen' hlen hholes' (by omega) henough' hrest
      -- the part of the buffer beyond the last block is cut from the concatenation too
      have hcut : (List.range (min size.toNat (7168 - pos))).map buf =
          ((List.range size.toNat).map buf).take (7168 - (fileBytes s.kernel.fs ino).length) := by
        rw [length_fileBytes, hpos, ← List.map_take, List.take_range, min_comm]
      change fileBytes (sysRun (sysStep s (.writeFd pid fd size buf other)).1 es).kernel.fs ino = _
      rw [hrun, hbytes, hcut, take_append_take _ _ _ (by rw [length_fileBytes]; omega), hsent, hbuf,
        List.append_assoc]
    · obtain ⟨hfs, hopen'⟩ := hq.frame hopen
      rw [hq.sent_eq, List.length_nil, Nat.zero_add] at hn
      have hrun := ih (hinv.step e) (hfs ▸ ht) hopen' (hfs ▸ hpos) (hfs ▸ hholes) hn
        (hfs ▸ henough) hrest
      change fileBytes (sysRun (sysStep s e).1 es).kernel.fs ino = _
      rw [hrun, hfs, hsent, hq.sent_eq, List.nil_append]

/-- A successful open gives a descriptor at offset 0. -/
theorem openAt_openNode (hmade : node.WellMade)
    (hok : (sysStep s (.openNode pid node hmade)).2.eax ≠ -1#32) :
    OpenAt (sysStep s (.openNode pid node hmade)).1 pid
      (sysStep s (.openNode pid node hmade)).2.eax node 0 := by
  cases hi : (s.task pid).freeFd with
  | none =>
    simp only [sysStep, sysOpenNode, hi] at hok
    exact absurd rfl hok
  | some i =>
    have hlt := (Task.freeFd_eq_some hi).1
    have hword : (BitVec.ofNat 32 i).toNat = i := by
      rw [BitVec.toNat_ofNat]
      omega
    simp only [sysStep, sysOpenNode, hi]
    refine ⟨?_, ?_⟩
    · rw [System.task_setTask_self, Task.node?_eq_some, hword, Table.get_set_self _ hlt]
      exact ⟨hlt, rfl⟩
    · rw [System.task_setTask_self, hword, Table.get_set_self _ hlt]
      rfl

/-- There are free blocks for the first `total` bytes of a file, as far as its blocks reach. -/
def EnoughBlocks (fs : Pafs.State) (ino total : ℕ) : Prop :=
  (missingBlocks fs ino ((min total 7168 + 511) / 512)).card ≤
    Bitmap.clearCount fs.blockBitmap 18 4096

/-- **The stream law.** In every reachable system, on a newly opened descriptor of a PAFS file: a run
of writes to an empty file makes it the concatenation of the buffers, up to 7168 bytes, and a run of
reads returns the file cut into chunks, with 0 once the end is reached. -/
theorem descriptor_stream {s : System} (hs : SysReachable s) {pid ino : ℕ} {node : VfsNode}
    (hnode : node.IsPafs ino) (ht : (s.kernel.fs.inode ino).type = pafsTypeFile)
    (hok : (sysStep s (.openNode pid node hnode.wellMade)).2.eax ≠ -1#32) :
    let s' := (sysStep s (.openNode pid node hnode.wellMade)).1
    let fd := (sysStep s (.openNode pid node hnode.wellMade)).2.eax
    (fd ≠ 1#32 → fd ≠ 2#32 → (s.kernel.fs.inode ino).size = 0#32 →
      ∀ es : List Event, (∀ e ∈ es, e.Writes pid fd ∨ e.Quiet pid fd) →
        EnoughBlocks s.kernel.fs ino (sent pid fd es).length →
        fileBytes (sysRun s' es).kernel.fs ino = (sent pid fd es).take 7168) ∧
    ∀ es : List Event, (∀ e ∈ es, e.Reads pid fd ∨ e.Quiet pid fd) →
      ((chunks pid fd s' es).map Reply.bytes).flatten =
          (fileBytes s.kernel.fs ino).take (asked pid fd es) ∧
        (∀ r ∈ chunks pid fd s' es, r.eax.toNat = r.bytes.length) ∧
        ((s.kernel.fs.inode ino).size.toNat ≤ asked pid fd es → ∀ size other, 0 ≤ size.toInt →
          (sysStep (sysRun s' es) (.read pid fd size other)).2 = ⟨0#32, []⟩) := by
  intro s' fd
  have hopen : OpenAt s' pid fd node 0 := openAt_openNode hnode.wellMade hok
  have hinv : SysInv s' := hs.inv.step _
  refine ⟨fun h1 h2 hempty es hes henough => ?_, fun es hes => ?_⟩
  · have hbytes : fileBytes s'.kernel.fs ino = [] := by
      change (List.range (s.kernel.fs.inode ino).size.toNat).map _ = []
      rw [hempty]
      rfl
    have hholes : Pafs.NoHoles s'.kernel.fs ino := by
      intro p hp
      change p < (s.kernel.fs.inode ino).size.toNat at hp
      rw [hempty] at hp
      exact absurd hp (Nat.not_lt_zero p)
    have hrun := @writes_run s' pid ino 0 fd node es hinv hnode ht ⟨h1, h2⟩ hopen
      (congrArg BitVec.toNat hempty) hholes _ (by omega) henough hes
    rw [hrun, hbytes, List.nil_append]
  · obtain ⟨hflat, heax, hfs, hopen'⟩ := @reads_run s' pid ino 0 fd node es hinv.sizes hnode ht hopen
      (Nat.zero_le _) hes
    refine ⟨hflat, heax, fun hend size other hsize => ?_⟩
    have hsizes : FileSizes (sysRun s' es).kernel.fs := hfs.symm ▸ hinv.sizes
    have hcap : (s.kernel.fs.inode ino).size.toNat ≤ 14 * 512 := hs.inv.sizes ino ht
    -- the whole file has been read, so nothing is left to return
    have hall : (((fileBytes s'.kernel.fs ino).drop 0).take (asked pid fd es)).length =
        (s.kernel.fs.inode ino).size.toNat := by
      rw [List.length_take, List.length_drop, length_fileBytes]
      change min _ ((s.kernel.fs.inode ino).size.toNat - 0) = _
      omega
    rw [hall] at hopen'
    have hpos : 0 + (s.kernel.fs.inode ino).size.toNat ≤ 7168 := by omega
    have hreply := (read_step hsizes hnode (hfs.symm ▸ ht) hopen' hpos hsize other).1
    rw [hreply, List.drop_of_length_le]
    · rw [List.take_nil]
      rfl
    · rw [hfs, length_fileBytes]
      exact Nat.le_add_left _ 0

/-- The node that `pafs_vfs_finddir` makes for the name `a` and inode 1. -/
def fileNode : VfsNode :=
  ⟨[97#8], vfsFile, 1#32, 0#32, some .pafsVfsRead, some .pafsVfsWrite⟩

theorem fileNode_isPafs : fileNode.IsPafs 1 := ⟨rfl, rfl, Or.inl rfl, rfl⟩

/-- A fresh disk with a file of `n` bytes. -/
def fileOf (n : ℕ) : System :=
  sysRun ⟨Pafs.pafsFormat Pafs.ramdiskKernel, fun _ => newTask⟩
    [.pafs (.write (CString.ofBytes [97#8]) (fun k => BitVec.ofNat 8 k) n) trivial]

/-- An empty file, written as 3 and 2 bytes, and one of five bytes, read as 3 and 4. -/
theorem descriptor_stream_small :
    let s' := (sysStep (fileOf 0) (.openNode 0 fileNode fileNode_isPafs.wellMade)).1
    let t' := (sysStep (fileOf 5) (.openNode 0 fileNode fileNode_isPafs.wellMade)).1
    let writes := [Event.writeFd 0 0#32 3#32 (fun k => BitVec.ofNat 8 k) 0#32,
      .writeFd 0 0#32 2#32 (fun k => BitVec.ofNat 8 (k + 3)) 0#32]
    let reads := [Event.read 0 0#32 3#32 ⟨0#32, []⟩, .read 0 0#32 4#32 ⟨0#32, []⟩]
    fileBytes (sysRun s' writes).kernel.fs 1 = [0#8, 1#8, 2#8, 3#8, 4#8] ∧
      ((chunks 0 0#32 t' reads).map Reply.bytes).flatten = [0#8, 1#8, 2#8, 3#8, 4#8] ∧
      (sysStep (sysRun t' reads) (.read 0 0#32 4#32 ⟨0#32, []⟩)).2 = ⟨0#32, []⟩ := by
  intro s' t' writes reads
  have heax : (sysStep (fileOf 0) (.openNode 0 fileNode fileNode_isPafs.wellMade)).2.eax = 0#32 := by
    decide +kernel
  have heax' : (sysStep (fileOf 5) (.openNode 0 fileNode fileNode_isPafs.wellMade)).2.eax = 0#32 := by
    decide +kernel
  obtain ⟨hwrite, -⟩ := @descriptor_stream (fileOf 0) ⟨_, _, rfl⟩ 0 1 fileNode fileNode_isPafs
    (by decide +kernel) (by rw [heax]; decide)
  obtain ⟨-, hread⟩ := @descriptor_stream (fileOf 5) ⟨_, _, rfl⟩ 0 1 fileNode fileNode_isPafs
    (by decide +kernel) (by rw [heax']; decide)
  rw [heax] at hwrite
  rw [heax'] at hread
  have hwrites : ∀ e ∈ writes, e.Writes 0 0#32 ∨ e.Quiet 0 0#32 := by
    intro e he
    rcases List.mem_pair.mp he with rfl | rfl
    · exact Or.inl ⟨3#32, _, _, rfl, by decide⟩
    · exact Or.inl ⟨2#32, _, _, rfl, by decide⟩
  have hreads : ∀ e ∈ reads, e.Reads 0 0#32 ∨ e.Quiet 0 0#32 := by
    intro e he
    rcases List.mem_pair.mp he with rfl | rfl
    · exact Or.inl ⟨3#32, _, rfl, by decide⟩
    · exact Or.inl ⟨4#32, _, rfl, by decide⟩
  have henough : EnoughBlocks (fileOf 0).kernel.fs 1 (sent 0 0#32 writes).length := by
    unfold EnoughBlocks
    decide +kernel
  have hempty : ((fileOf 0).kernel.fs.inode 1).size = 0#32 := by decide +kernel
  have hwritten := hwrite (by decide) (by decide) hempty writes hwrites henough
  have hsent : (sent 0 0#32 writes).take 7168 = [0#8, 1#8, 2#8, 3#8, 4#8] := by decide +kernel
  obtain ⟨hbytes, -, hend⟩ := hread reads hreads
  have hstored : (fileBytes (fileOf 5).kernel.fs 1).take (asked 0 0#32 reads) =
      [0#8, 1#8, 2#8, 3#8, 4#8] := by decide +kernel
  have hasked : ((fileOf 5).kernel.fs.inode 1).size.toNat ≤ asked 0 0#32 reads := by
    decide +kernel
  refine ⟨?_, ?_, ?_⟩
  · rw [hwritten]
    exact hsent
  · rw [hbytes]
    exact hstored
  · exact hend hasked _ _ (by decide)

end Stream

end PekerOS
