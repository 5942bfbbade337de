import PekerOS.Fs.Vfs.Path
import PekerOS.Mm.Bytes
import Mathlib.Data.List.ReduceOption

/-!
# The program loader

`elf_load` looks a file up, reads it into a block of the kernel heap, and places the segments that its
program headers describe: a frame is mapped for each page that `p_memsz` counts from `p_vaddr` on, the
bytes of the file are copied, and the rest is set to zero. The headers are read in the buffer, while the
segments are placed.

What `elf_load` prints is left out, and so is what reading a file allocates and frees again.

## Main definitions

* `Segment`, `readSegment`, `loadSegment`, `loadSegments`: the loop over the program headers
* `elfLoad`: `elf_load`
* `Placed`: what placing a segment has changed
* `Headers`: the headers lie in memory of the kernel

## Main results

* `loadSegment_placed`, `loadSegment_runs`: a segment below the higher half
* `loadAll_placed`: the segments one after another
* `loadSegments_eq`: the loop places the segments that the headers describe
-/

namespace PekerOS.Elf

open Mm Vfs

/-- `PT_LOAD` -/
abbrev ptLoad : Word := 1#32

/-- `ELFMAG0` to `ELFMAG3` -/
abbrev elfMagic : List Byte := [0x7F#8, 69#8, 76#8, 70#8]

/-- What `elf_load` reads in a program header. -/
structure Segment where
  vaddr : Word
  memSize : Word
  fileSize : Word
  offset : Word
deriving DecidableEq

/-- The program header at `ph`, if it is one of a segment to load; `none` on a page fault. -/
def readSegment (s : Machine) (ph : Word) : Option (Option Segment) := do
  let type ← s.readWord ph
  if type = ptLoad then
    let startVirt ← s.readWord (ph + 8#32)
    let memSize ← s.readWord (ph + 20#32)
    let fileSize ← s.readWord (ph + 16#32)
    let offset ← s.readWord (ph + 4#32)
    return some ⟨startVirt, memSize, fileSize, offset⟩
  else return none

/-- The addresses that are mapped for a segment. -/
def Segment.pages (seg : Segment) : List Word :=
  let numPages := (seg.memSize + 4095#32) / 4096#32
  (List.range numPages.toNat).map fun j => seg.vaddr + BitVec.ofNat 32 j * 4096#32

/-- A segment is placed. -/
def loadSegment (buffer : Word) (s : Machine) (seg : Segment) : Option Machine := do
  let s ← seg.pages.foldlM mapFrame s
  let s ← memcpy s seg.vaddr (buffer + seg.offset) seg.fileSize
  if seg.fileSize < seg.memSize then
    memset s (seg.vaddr + seg.fileSize) 0#8 (seg.memSize - seg.fileSize)
  else return s

/-- The loop over the program headers from `i` on; `e_phnum` is read in every round. -/
def loadSegments (buffer ph : Word) : ℕ → ℕ → Machine → Option Machine
  | 0, _, _ => none
  | rounds + 1, i, s => do
    -- the header is read again in every round
    let phnum ← s.readHalf (buffer + 44#32)
    if i < phnum.toNat then
      match ← readSegment s (ph + BitVec.ofNat 32 i * 32#32) with
      | some seg =>
        let s ← loadSegment buffer s seg
        loadSegments buffer ph rounds (i + 1) s
      | none => loadSegments buffer ph rounds (i + 1) s
    else return s

/-- `e_ident` begins with the given bytes. -/
def hasMagic (s : Machine) (p : Word) : List Byte → Option Bool
  | [] => some true
  | c :: cs => do
    let b ← s.readByte p
    if b ≠ c then return false else hasMagic s (p + 1#32) cs

/-- `kmalloc` of the buffer: a null pointer for no bytes, and if the heap is full. -/
def kmallocBuffer (st : VfsState) (length buffer : Word) : VfsState × Option ℕ :=
  if length = 0#32 ∨ buffer = 0#32 then (st, none)
  else
    let (st, block) := st.kmalloc
    (st, some block)

/-- `kfree` of the buffer. -/
def kfreeBuffer (st : VfsState) : Option ℕ → VfsState
  | none => st
  | some block => st.kfree block

variable {ι : Type}

/-- What `vfs_read` of a whole file gives: nothing for a directory of PAFS. -/
def fileBytes (t : DirTree ι) (node : Node ι) : List Byte :=
  match t.kind node.inode with
  | .pafs =>
    if node.flags &&& vfsDirectory ≠ 0#32 then [] else (t.content node.inode).take node.length.toNat
  | .ext2 => (t.content node.inode).take node.length.toNat

/-- From the buffer with the file to the result; `none` on a page fault. -/
def loadImage (s : Machine) (buffer : Word) : Option (Machine × Word) := do
  let phoff ← s.readWord (buffer + 28#32)
  let s ← loadSegments buffer (buffer + phoff) 65537 0 s
  let entry ← s.readWord (buffer + 24#32)
  return (s, entry)

/-- `elf_load`, where `kmalloc` gives the address `buffer`, with calls of `vfs_get_node_by_path` nested at
most `d` deep; `none` if it does not return. -/
def elfLoad (t : DirTree ι) (d : ℕ) (buffer : Word) (st : VfsState) (s : Machine) (base : Option (Node ι))
    (filename : CString) : Option (VfsState × Machine × Word) :=
  match t.vfsGetNodeByPath d st base filename with
  | (_, none) => none
  | (st, some none) => some (st, s, -1#32)
  | (st, some (some node)) => do
    let (st, block) := kmallocBuffer st node.node.length buffer
    let buffer := if node.node.length = 0#32 then 0#32 else buffer
    let bytes := fileBytes t node.node
    let s ← storeBytes s buffer bytes
    -- nothing was read
    if (BitVec.ofNat 32 bytes.length).toInt ≤ 0 then
      return (kfreeBuffer (st.kfree node.addr) block, s, -1#32)
    if !(← hasMagic s buffer elfMagic) then
      -- this way out leaves the node
      return (kfreeBuffer st block, s, -1#32)
    let (s, entry) ← loadImage s buffer
    return ((kfreeBuffer st block).kfree node.addr, s, entry)

/-! ## One segment -/

/-- The memory management is called as `KernelCall.elfLoad` says. -/
theorem pages_machine (seg : Segment) (s : Machine) :
    seg.pages.foldlM mapFrame s =
      (KernelCall.elfLoad seg.vaddr seg.memSize).ops.foldlM Machine.step s := by
  rw [Segment.pages, KernelCall.ops, List.foldlM_map, List.foldlM_map]
  rfl

/-- Frames have been mapped for the pages, and bytes stored at the addresses of the segment. -/
structure Placed (pd : ℕ) (s s₁ s' : Machine) (seg : Segment) : Prop where
  mapped : FramesMapped pd s s₁ seg.pages
  written : Written pd s₁ s' (addresses seg.vaddr seg.memSize.toNat)
  plain : ∀ i < seg.memSize.toNat, Plain pd s₁ (seg.vaddr + BitVec.ofNat 32 i)

/-- The segment lies below the higher half, and has no more bytes in the file than in memory. -/
structure Segment.Ok (seg : Segment) : Prop where
  file_le : seg.fileSize ≤ seg.memSize
  user : seg.vaddr.toNat + seg.memSize.toNat ≤ kernelBase.toNat

section Segment

variable {pd : ℕ} {s s₁ s' : Machine} {buffer : Word} {seg : Segment} {ws : List Word}

theorem Segment.Ok.pages_user (h : seg.Ok) : ∀ v ∈ seg.pages, v < kernelBase := by
  intro v hv
  obtain ⟨j, hj, rfl⟩ := List.mem_map.mp hv
  have huser := h.user
  have hbase : kernelBase.toNat = 3221225472 := rfl
  rw [List.mem_range, BitVec.toNat_udiv, BitVec.toNat_add] at hj
  change j < (seg.memSize.toNat + 4095) % 2 ^ 32 / 4096 at hj
  rw [Nat.mod_eq_of_lt (by omega)] at hj
  rw [BitVec.lt_def, BitVec.toNat_add, toNat_frame (by omega), hbase]
  omega

theorem addresses_append (dest : Word) (n m : ℕ) :
    addresses dest n ∪ addresses (dest + BitVec.ofNat 32 n) m = addresses dest (n + m) := by
  ext v
  constructor
  · rintro (⟨i, hi, rfl⟩ | ⟨i, hi, rfl⟩)
    · exact ⟨i, by omega, rfl⟩
    · exact ⟨n + i, by omega, by rw [BitVec.ofNat_add, BitVec.add_assoc]⟩
  · rintro ⟨i, hi, rfl⟩
    by_cases hlt : i < n
    · exact .inl ⟨i, hlt, rfl⟩
    · refine .inr ⟨i - n, by omega, ?_⟩
      rw [BitVec.add_assoc, ← BitVec.ofNat_add, Nat.add_sub_cancel' (by omega)]

/-- The loops over the file's bytes and over the rest, which may be empty. -/
theorem loadSegment_eq (h : seg.fileSize ≤ seg.memSize) (s : Machine) :
    loadSegment buffer s seg = (seg.pages.foldlM mapFrame s).bind fun s =>
      (memcpy s seg.vaddr (buffer + seg.offset) seg.fileSize).bind fun s =>
        fill (fun _ _ => some 0#8) (seg.vaddr + BitVec.ofNat 32 seg.fileSize.toNat) s
          (seg.memSize.toNat - seg.fileSize.toNat) := by
  have hsize : (seg.memSize - seg.fileSize).toNat = seg.memSize.toNat - seg.fileSize.toNat :=
    BitVec.toNat_sub_of_le h
  rw [loadSegment, BitVec.ofNat_toNat, BitVec.setWidth_eq]
  refine congrArg _ (funext fun s => congrArg _ (funext fun s => ?_))
  split
  · rw [memset, hsize]
  · next hnot =>
    rw [BitVec.lt_def] at hnot
    rw [show seg.memSize.toNat - seg.fileSize.toNat = 0 by omega]
    rfl

/-- **A segment that is placed**, if `elf_load` goes on. -/
theorem loadSegment_placed (hs : Sound pd s) (hok : seg.Ok)
    (hroom : needed pd s (seg.pages ++ ws) ≤ freeFrames s.pmm)
    (hload : loadSegment buffer s seg = some s') :
    ∃ s₁, Placed pd s s₁ s' seg ∧ needed pd s' ws ≤ freeFrames s'.pmm := by
  have huser := hok.user
  have hbase : kernelBase.toNat = 3221225472 := rfl
  have hle : seg.fileSize.toNat ≤ seg.memSize.toNat := hok.file_le
  obtain ⟨s₁, hmap, hmapped, hleft⟩ := hs.mapFrames hok.pages_user hroom
  rw [loadSegment_eq hok.file_le, hmap, Option.bind_some] at hload
  obtain ⟨s₂, hcopy, hclear⟩ := Option.bind_eq_some_iff.mp hload
  obtain ⟨hcopied, hplain⟩ := hmapped.sound.fill_user (by omega) hcopy
  have hstart : (seg.vaddr + BitVec.ofNat 32 seg.fileSize.toNat).toNat =
      seg.vaddr.toNat + seg.fileSize.toNat := by
    rw [BitVec.toNat_add, BitVec.toNat_ofNat]
    omega
  obtain ⟨hcleared, hplain'⟩ := hcopied.sound.fill_user (by rw [hstart]; omega) hclear
  have hwritten := hcopied.trans hcleared
  rw [addresses_append, Nat.add_sub_cancel' hle] at hwritten
  refine ⟨s₁, ⟨hmapped, hwritten, fun i hi => ?_⟩, by rwa [hwritten.needed, hwritten.pmm]⟩
  by_cases hlt : i < seg.fileSize.toNat
  · exact hplain i hlt
  · have hrest := hplain' (i - seg.fileSize.toNat) (by omega)
    rw [BitVec.add_assoc, ← BitVec.ofNat_add, Nat.add_sub_cancel' (by omega)] at hrest
    exact hcopied.plain.mp hrest

/-- The pages of the segment are mapped, if each of them is counted or was mapped before. -/
theorem plain_of_covered (hmapped : FramesMapped pd s s₁ seg.pages) (hok : seg.Ok)
    (hcovered : ∀ i < seg.memSize.toNat,
      (∃ w ∈ seg.pages, frameOf w = frameOf (seg.vaddr + BitVec.ofNat 32 i)) ∨
        ∃ g, translate s.cr3 s.mem (seg.vaddr + BitVec.ofNat 32 i) = some g) :
    ∀ i < seg.memSize.toNat, Plain pd s₁ (seg.vaddr + BitVec.ofNat 32 i) := by
  intro i hi
  obtain ⟨g, hg⟩ : ∃ g, translate s₁.cr3 s₁.mem (seg.vaddr + BitVec.ofNat 32 i) = some g := by
    by_cases hpage : ∃ w ∈ seg.pages, frameOf w = frameOf (seg.vaddr + BitVec.ofNat 32 i)
    · obtain ⟨g, -, hg⟩ := hmapped.page _ hpage
      exact ⟨g, hg⟩
    · obtain ⟨g, hg⟩ := (hcovered i hi).resolve_left hpage
      exact ⟨g, (hmapped.other _ fun w hw heq => hpage ⟨w, hw, heq⟩).trans hg⟩
  exact ⟨g, hg, hmapped.sound.plain_user (user_of_range hok.user hi) hg⟩

/-- **`elf_load` goes on** if the pages of the segment are mapped and the bytes are there. -/
theorem loadSegment_runs {f : ℕ → Byte} (hs : Sound pd s) (hok : seg.Ok)
    (hroom : needed pd s (seg.pages ++ ws) ≤ freeFrames s.pmm)
    (hcovered : ∀ i < seg.memSize.toNat,
      (∃ w ∈ seg.pages, frameOf w = frameOf (seg.vaddr + BitVec.ofNat 32 i)) ∨
        ∃ g, translate s.cr3 s.mem (seg.vaddr + BitVec.ofNat 32 i) = some g)
    (hsource : ∀ i < seg.fileSize.toNat, KernelOwned pd s (buffer + seg.offset + BitVec.ofNat 32 i) ∧
      s.readByte (buffer + seg.offset + BitVec.ofNat 32 i) = some (f i)) :
    ∃ s', loadSegment buffer s seg = some s' ∧ ∀ i < seg.memSize.toNat,
      s'.readByte (seg.vaddr + BitVec.ofNat 32 i) = some (if i < seg.fileSize.toNat then f i else 0#8) := by
  have huser := hok.user
  have hbase : kernelBase.toNat = 3221225472 := rfl
  have hle : seg.fileSize.toNat ≤ seg.memSize.toNat := hok.file_le
  -- first every page of the segment is mapped
  obtain ⟨s₁, hmap, hmapped, -⟩ := hs.mapFrames hok.pages_user hroom
  have hkeeps := hmapped.keeps hok.pages_user
  have haddr {i : ℕ} (hi : i < seg.memSize.toNat) : seg.vaddr + BitVec.ofNat 32 i < kernelBase :=
    user_of_range huser hi
  have hplain := plain_of_covered hmapped hok hcovered
  -- then the file is copied, from kernel memory that the new pages have left alone
  obtain ⟨s₂, hcopy, hcopied, hread⟩ := hmapped.sound.fill_user_runs (n := seg.fileSize.toNat) (f := f)
    (k := fun s i => s.readByte (buffer + seg.offset + BitVec.ofNat 32 i))
    (by omega) (fun i hi => hplain i (by omega)) fun i hi s₂ hs₂ => by
      obtain ⟨howned, hbyte⟩ := hsource i hi
      obtain ⟨howned₁, hbyte₁⟩ := hkeeps _ howned
      have hkeeps₂ := hs₂.keeps fun u ⟨j, hj, hu⟩ => hu ▸ haddr (show j < _ by omega)
      exact (hkeeps₂ _ howned₁).2.trans (hbyte₁.trans hbyte)
  have hstart : (seg.vaddr + BitVec.ofNat 32 seg.fileSize.toNat).toNat =
      seg.vaddr.toNat + seg.fileSize.toNat := by
    rw [BitVec.toNat_add, BitVec.toNat_ofNat]
    omega
  have hrest (i : ℕ) : seg.vaddr + BitVec.ofNat 32 seg.fileSize.toNat + BitVec.ofNat 32 i =
      seg.vaddr + BitVec.ofNat 32 (seg.fileSize.toNat + i) := by
    rw [BitVec.add_assoc, ← BitVec.ofNat_add]
  -- last the rest of the segment is set to zero
  obtain ⟨s₃, hclear, hcleared, hzero⟩ := hcopied.sound.fill_user_runs
    (n := seg.memSize.toNat - seg.fileSize.toNat) (f := fun _ => 0#8)
    (k := fun _ _ => some 0#8) (by rw [hstart]; omega)
    (fun i hi => by rw [hrest]; exact hcopied.plain.mpr (hplain _ (by omega))) fun _ _ _ _ => rfl
  refine ⟨s₃, ?_, fun i hi => ?_⟩
  · rw [loadSegment_eq hok.file_le, hmap, Option.bind_some, memcpy, hcopy, Option.bind_some, hclear]
  · by_cases hlt : i < seg.fileSize.toNat
    · -- the bytes of the file stay when the rest is set to zero
      rw [if_pos hlt, hcleared.user hcopied.sound (fun u ⟨j, hj, hu⟩ => ?_) (haddr hi), hread i hlt]
      · rintro ⟨j, hj, heq⟩
        have hnat := congrArg BitVec.toNat heq
        rw [hrest, toNat_add_ofNat (by omega) hi, toNat_add_ofNat (n := seg.memSize.toNat) (by omega)
          (by omega)] at hnat
        omega
      · rw [hu, hrest]
        exact haddr (by omega)
    · have hbyte := hzero (i - seg.fileSize.toNat) (by omega)
      rw [hrest, Nat.add_sub_cancel' (by omega)] at hbyte
      rw [hbyte, if_neg hlt]

theorem Placed.addresses_user (hok : seg.Ok) :
    ∀ u ∈ addresses seg.vaddr seg.memSize.toNat, u < kernelBase := by
  rintro u ⟨i, hi, rfl⟩
  exact user_of_range hok.user hi

theorem Placed.keeps (h : Placed pd s s₁ s' seg) (hok : seg.Ok) : Keeps pd s s' :=
  (h.mapped.keeps hok.pages_user).trans (h.written.keeps (Placed.addresses_user hok))

end Segment

/-! ## The loop -/

/-- The segments lie below the higher half, and there are frames for their pages. -/
structure Orderly (pd : ℕ) (s : Machine) (segs : List Segment) : Prop where
  sound : Sound pd s
  ok : ∀ seg ∈ segs, seg.Ok
  frames : needed pd s (segs.flatMap Segment.pages) ≤ freeFrames s.pmm

/-- The program headers at `ph` lie in memory of the kernel, and so does `e_phnum`. -/
structure Headers (pd : ℕ) (s : Machine) (buffer ph : Word) (headers : List (Option Segment)) : Prop where
  length_lt : headers.length < 65536
  num : s.readHalf (buffer + 44#32) = some (BitVec.ofNat 16 headers.length)
  num_owned : ∀ i < 2, KernelOwned pd s (buffer + 44#32 + BitVec.ofNat 32 i)
  header : ∀ i (hi : i < headers.length), readSegment s (ph + BitVec.ofNat 32 i * 32#32) = some headers[i]
  owned : ∀ i < headers.length, ∀ j < 32,
    KernelOwned pd s (ph + BitVec.ofNat 32 i * 32#32 + BitVec.ofNat 32 j)

section Loop

variable {pd : ℕ} {s s' : Machine} {buffer ph : Word} {seg : Segment} {segs : List Segment}
  {headers : List (Option Segment)}

theorem Orderly.head (h : Orderly pd s (seg :: segs)) : seg.Ok := h.ok seg List.mem_cons_self

/-- **A step of the loop** places a segment, and the others stay orderly. -/
theorem Orderly.step (h : Orderly pd s (seg :: segs)) (hload : loadSegment buffer s seg = some s') :
    (∃ s₁, Placed pd s s₁ s' seg) ∧ Orderly pd s' segs := by
  obtain ⟨s₁, hplaced, hleft⟩ := loadSegment_placed h.sound h.head h.frames hload
  exact ⟨⟨s₁, hplaced⟩, hplaced.written.sound,
    fun seg' hseg' => h.ok seg' (List.mem_cons_of_mem seg hseg'), hleft⟩

/-- **The run of the loop** leaves the memory of the kernel alone. -/
theorem Orderly.keeps (h : Orderly pd s segs) (hload : segs.foldlM (loadSegment buffer) s = some s') :
    Sound pd s' ∧ Keeps pd s s' := by
  induction segs generalizing s with
  | nil =>
    obtain rfl := Option.some.inj hload
    exact ⟨h.sound, .refl pd s⟩
  | cons seg segs ih =>
    rw [List.foldlM_cons] at hload
    obtain ⟨s₁, hfirst, hrest⟩ := Option.bind_eq_some_iff.mp hload
    obtain ⟨⟨s₂, hplaced⟩, hnext⟩ := h.step hfirst
    obtain ⟨hsound, hkeeps⟩ := ih hnext hrest
    exact ⟨hsound, (hplaced.keeps h.head).trans hkeeps⟩

theorem Keeps.readSegment (h : Keeps pd s s') (hv : ∀ j < 32, KernelOwned pd s (ph + BitVec.ofNat 32 j)) :
    readSegment s' ph = readSegment s ph := by
  have hfield (k : ℕ) (hk : k + 4 ≤ 32) :
      s'.readWord (ph + BitVec.ofNat 32 k) = s.readWord (ph + BitVec.ofNat 32 k) :=
    h.readWord fun i hi => by
      rw [BitVec.add_assoc, ← BitVec.ofNat_add]
      exact hv (k + i) (by omega)
  have htype : s'.readWord ph = s.readWord ph := h.readWord fun i hi => hv i (by omega)
  rw [Elf.readSegment, Elf.readSegment, htype, hfield 8 (by decide), hfield 20 (by decide),
    hfield 16 (by decide), hfield 4 (by decide)]

theorem Headers.keeps (h : Headers pd s buffer ph headers) (hkeeps : Keeps pd s s') :
    Headers pd s' buffer ph headers := by
  refine ⟨h.length_lt, ?_, fun i hi => (hkeeps _ (h.num_owned i hi)).1, fun i hi => ?_,
    fun i hi j hj => (hkeeps _ (h.owned i hi j hj)).1⟩
  · rw [hkeeps.readHalf h.num_owned, h.num]
  · rw [Keeps.readSegment hkeeps (h.owned i hi), h.header i hi]

/-- **The loop** places the segments of the program headers. -/
theorem loadSegments_eq {rounds i : ℕ} (h : Headers pd s buffer ph headers) (hle : i ≤ headers.length)
    (hord : Orderly pd s ((headers.drop i).reduceOption)) (hrounds : headers.length < i + rounds) :
    loadSegments buffer ph rounds i s = ((headers.drop i).reduceOption).foldlM (loadSegment buffer) s := by
  induction rounds generalizing i s with
  | zero => omega
  | succ rounds ih =>
    have hnum : (BitVec.ofNat 16 headers.length).toNat = headers.length := by
      rw [BitVec.toNat_ofNat]
      exact Nat.mod_eq_of_lt h.length_lt
    rw [loadSegments, h.num, Option.bind_eq_bind, Option.bind_some, hnum]
    by_cases hi : i < headers.length
    · rw [if_pos hi, h.header i hi, List.drop_eq_getElem_cons hi]
      rw [List.drop_eq_getElem_cons hi] at hord
      cases hheader : headers[i] with
      | none =>
        rw [hheader, List.reduceOption_cons_of_none] at hord
        rw [List.reduceOption_cons_of_none]
        exact ih h hi hord (by omega)
      | some seg =>
        rw [hheader, List.reduceOption_cons_of_some] at hord
        rw [List.reduceOption_cons_of_some, List.foldlM_cons]
        cases hload : loadSegment buffer s seg with
        | none =>
          simp [hload]
        | some s₁ =>
          -- the headers are read again in the state after the segment
          obtain ⟨⟨s₂, hplaced⟩, hnext⟩ := hord.step hload
          have hrest := ih (h.keeps (hplaced.keeps hord.head)) hi hnext (by omega)
          simpa [hload] using hrest
    · rw [if_neg hi, List.drop_eq_nil_of_le (by omega)]
      rfl

end Loop

end PekerOS.Elf
