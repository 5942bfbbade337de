import PekerOS.Fs.Pafs.HostTool
import PekerOS.Fs.Pafs.Names
import PekerOS.Fs.Pafs.WriteThrough

/-!
# PAFS: the host script and the kernel

`add_file_to_pafs` on an image that the kernel could have written. The file is put into an inode and
blocks that nothing else owns, and the entry into the slot where the kernel would put it, with the
name padded by zeros where the kernel leaves old bytes. So the result differs from what the kernel's
own insertion makes in bytes that no lookup reads.

The loop that collects blocks stops on reaching the number it needs, which for an empty file it has
passed when it looks for the first time: it takes every free block, and the call then fails, or
marks blocks that the counter still has as free.

## Main definitions

* `ImageInv fs`: the kernel's invariants on a disk
* `Ready fs data name cname`: an image with room for the file
* `AgreesAfter fs data cname fs'`: the file is there, and everything else is as before
* `hostFile`: the state with the file but without its entry

## Main results

* `Inv.hostFile`: the file's blocks are owned by its inode alone
* `HostStep.samePadding`: the image is the kernel's own insertion up to padding
* `host_add_agrees_iff`: exactly which calls agree with the kernel
-/

namespace PekerOS.Pafs

/-- The kernel's invariants on a disk: the block ledger, compact directories and the root of `Inv`,
and the inode counter. -/
structure ImageInv (fs : State) : Prop extends Inv fs where
  magic : fs.sb.magic = pafsMagic
  inodeCount : fs.sb.freeInodes.toNat = (freeInodes fs).card

/-- An image with room for a file of this length under this name, given as the script and as the
kernel take it. -/
structure Ready (fs : State) (data : List Byte) (name : List Char) (cname : CString) : Prop where
  image : ImageInv fs
  short : data.length ≤ 7168
  encoded : encodeAscii name = some cname.chars
  nameLen : cname.chars.length ≤ 27
  absent : pafsFindEntry fs 0 cname = -1
  inode : ∃ ino < 128, (fs.inode ino).type = pafsTypeFree
  blocks : blocksFor data ≤ Bitmap.clearCount fs.blockBitmap 18 4096
  block : fs.block 0 0 ≠ 0#32
  slot : ∃ j < 16, entryInode (fs.disk (rootLba fs)) j = 0#32

/-- The image after the file is added: the invariants hold, the kernel reads the data under the name,
and every other file and entry is as before. -/
structure AgreesAfter (fs : State) (data : List Byte) (cname : CString) (fs' : State) : Prop where
  image : ImageInv fs'
  read : ∀ (k : Kernel) (maxLen : ℤ), k.fs = fs' → data.length ≤ maxLen →
    (pafsRead k cname maxLen).2 =
      ((data.length : ℤ), data ++ if (data.length : ℤ) < maxLen then [0#8] else [])
  files : ∀ j, j ≠ 0 → (fs.inode j).type ≠ pafsTypeFree → fs'.inode j = fs.inode j ∧
    ∀ s, fs.block j s ≠ 0#32 → fs'.disk (fs.block j s).toNat = fs.disk (fs.block j s).toNat
  entries : ∀ p e, fs.dirent p = some e → fs'.dirent p = some e

/-! ## Names -/

section Names

variable {dirData : Sector} {name : List Char}

theorem decodeAscii_cons (b : Byte) (bytes : List Byte) : decodeAscii (b :: bytes) =
    if b.toNat < 128 then (decodeAscii bytes).map (Char.ofNat b.toNat :: ·) else none := by
  rw [decodeAscii, List.mapM_cons]
  split
  · change (decodeAscii bytes).bind _ = _
    cases decodeAscii bytes <;> rfl
  · rfl

theorem encodeAscii_cons (c : Char) (name : List Char) : encodeAscii (c :: name) =
    if c.toNat < 128 then (encodeAscii name).map (BitVec.ofNat 8 c.toNat :: ·) else none := by
  rw [encodeAscii, List.mapM_cons]
  split
  · change (encodeAscii name).bind _ = _
    cases encodeAscii name <;> rfl
  · rfl

theorem decodeAscii_eq_some_iff {bytes : List Byte} :
    (∃ s, decodeAscii bytes = some s) ↔ ∀ b ∈ bytes, b.toNat < 128 := by
  induction bytes with
  | nil => simp [decodeAscii]
  | cons b bytes ih =>
    rw [decodeAscii_cons, List.forall_mem_cons, ← ih]
    by_cases hb : b.toNat < 128
    · rw [if_pos hb]
      simp [hb]
    · rw [if_neg hb]
      simp [hb]

/-- Encoding undoes decoding. -/
theorem encodeAscii_decodeAscii {bytes : List Byte} {s : List Char}
    (h : decodeAscii bytes = some s) : encodeAscii s = some bytes := by
  induction bytes generalizing s with
  | nil =>
    obtain rfl : [] = s := by simpa [decodeAscii] using h
    rfl
  | cons b bytes ih =>
    rw [decodeAscii_cons] at h
    split at h
    · next hb =>
      obtain ⟨t, ht, rfl⟩ := Option.map_eq_some_iff.mp h
      have hval : (Char.ofNat b.toNat).toNat = b.toNat := by
        rw [Char.toNat_ofNat, if_pos (Or.inl (by omega))]
      rw [encodeAscii_cons, hval, if_pos hb, ih ht, Option.map_some, BitVec.ofNat_toNat,
        BitVec.setWidth_eq]
    · simp at h

theorem checkNames_eq_none_iff {l : List ℕ} : checkNames dirData name l = none ↔
    ∀ i ∈ l, entryInode dirData i ≠ 0#32 →
      ∃ s, decodeAscii (entryField dirData i) = some s ∧ s ≠ name := by
  induction l with
  | nil => simp [checkNames]
  | cons i rest ih =>
    rw [checkNames, List.forall_mem_cons]
    by_cases hne : entryInode dirData i ≠ 0#32
    · rw [if_pos hne]
      cases hdec : decodeAscii (entryField dirData i) with
      | none => simp [hne]
      | some s =>
        by_cases heq : s = name
        · simp [heq, hne]
        · simp only [heq, if_false, ih]
          simp [hne, heq]
    · rw [if_neg hne, ih]
      simp [hne]

/-- A short name is in the 28 bytes of its field. -/
theorem entryField_eq {j : ℕ} (hj : j < 16) (hlen : (entryName dirData j).length ≤ 27) :
    entryField dirData j = entryName dirData j := by
  have hfield : (List.range 28).map (fun k => dirData.get (32 * j + 4 + k)) =
      (List.range' (32 * j + 4) 28).map dirData.get := by
    rw [List.range'_eq_map_range, List.map_map]
    rfl
  have hbuffer : List.range' (32 * j + 4) (512 - (32 * j + 4)) =
      List.range' (32 * j + 4) 28 ++ List.range' (32 * j + 32) (512 - (32 * j + 32)) := by
    rw [show 512 - (32 * j + 4) = 28 + (512 - (32 * j + 32)) by omega, List.range'_append_1]
  rw [entryName, cstrAt, hbuffer, List.map_append, List.takeWhile_append] at hlen ⊢
  rw [entryField, hfield]
  -- a scan that passed the field would give a name of 28 bytes
  split at hlen
  · rw [List.length_append, List.length_map, List.length_range'] at hlen
    omega
  · next hstop => rw [if_neg hstop]

end Names

/-! ## The file -/

/-- The state with the new file, before its entry is added. -/
def hostFile (fs : State) (data : List Byte) (ino : ℕ) (assigned : List ℕ) : State where
  sb := { fs.sb with
    freeBlocks := fs.sb.freeBlocks - BitVec.ofNat 32 assigned.length
    freeInodes := fs.sb.freeInodes - 1#32 }
  inodes := fs.inodes.set ino (packInode data.length assigned)
  blockBitmap := assigned.foldl Bitmap.set fs.blockBitmap
  disk := writeChunks data 0 assigned fs.disk

section File

variable {fs : State} {data : List Byte} {ino : ℕ} {assigned : List ℕ}

theorem inode_hostFile_self (hlt : ino < 128) :
    (hostFile fs data ino assigned).inode ino = packInode data.length assigned :=
  Table.get_set_self _ hlt _

theorem inode_hostFile_ne {j : ℕ} (hj : j ≠ ino) :
    (hostFile fs data ino assigned).inode j = fs.inode j :=
  Table.get_set_ne _ hj _

theorem block_packInode {len s : ℕ} (hcap : assigned.length ≤ 14) :
    (packInode len assigned).blocks.get s = BitVec.ofNat 32 (assigned.getD s 0) := by
  by_cases hs : s < 14
  · exact Table.get_ofFn (fun k => BitVec.ofNat 32 (assigned.getD k 0)) hs
  · rw [Table.get_of_le _ (by omega), List.getD_eq_default _ _ (by omega)]
    rfl

theorem block_hostFile_self (hlt : ino < 128) (hcap : assigned.length ≤ 14) (s : ℕ) :
    (hostFile fs data ino assigned).block ino s = BitVec.ofNat 32 (assigned.getD s 0) := by
  rw [State.block, inode_hostFile_self hlt, block_packInode hcap]

/-- The collected blocks, each a clear data block, in the slots of a free inode. -/
theorem Blocks.hostFile (h : Blocks fs) (hlt : ino < 128) (hzero : ∀ s, fs.block ino s = 0#32)
    (hnd : assigned.Nodup) (hcap : assigned.length ≤ 14)
    (hclear : ∀ b ∈ assigned, b ∈ Bitmap.clearBits fs.blockBitmap 18 4096) :
    Blocks (hostFile fs data ino assigned) := by
  induction assigned using List.reverseRecOn with
  | nil =>
    refine h.congr (fun j s => ?_) rfl (BitVec.sub_zero _)
    by_cases hj : j = ino
    · subst hj
      rw [block_hostFile_self hlt hcap, hzero]
      rfl
    · rw [State.block, inode_hostFile_ne hj, State.block]
  | append_singleton l b ih =>
    rw [List.length_append, List.length_singleton] at hcap
    obtain ⟨hl, -, hdisj⟩ := List.nodup_append.mp hnd
    have hbl : b ∉ l := fun hb => hdisj b hb b (List.mem_singleton_self b) rfl
    have hbits : ∀ c ∈ l, c < 8 * 512 := fun c hc =>
      Bitmap.lt_of_mem_clearBits (hclear c (List.mem_append_left _ hc))
    have hprev := ih hl (by omega) fun c hc => hclear c (List.mem_append_left _ hc)
    have hcap' : (l ++ [b]).length ≤ 14 := by simpa using hcap
    refine hprev.assign (i := ino) (s := l.length) (b := b) ?_ ?_ ?_ (fun j u hne => ?_) ?_ ?_
    · obtain ⟨hrange, htest⟩ := Bitmap.mem_clearBits.mp (hclear b (by simp))
      refine Bitmap.mem_clearBits.mpr ⟨hrange, ?_⟩
      change Bitmap.test (l.foldl Bitmap.set fs.blockBitmap) b = false
      rw [Bitmap.test_foldl_set _ hbits, htest, Bool.or_false, decide_eq_false_iff_not]
      exact hbl
    · rw [block_hostFile_self hlt (by omega), List.getD_eq_default _ _ le_rfl]
    · rw [block_hostFile_self hlt hcap', List.getD_append_right _ _ _ _ le_rfl, Nat.sub_self]
      rfl
    · by_cases hj : j = ino
      · subst hj
        have hu : u ≠ l.length := fun hu => hne (by rw [hu])
        rw [block_hostFile_self hlt hcap', block_hostFile_self hlt (by omega)]
        -- a slot before the new one, or one after it
        rcases Nat.lt_or_gt_of_ne hu with hu | hu
        · rw [List.getD_append _ _ _ _ hu]
        · rw [List.getD_eq_default _ _ (by simp; omega), List.getD_eq_default _ _ (by omega)]
      · rw [State.block, inode_hostFile_ne hj, State.block, inode_hostFile_ne hj]
    · change (l ++ [b]).foldl Bitmap.set fs.blockBitmap = _
      rw [List.foldl_append]
      rfl
    · change fs.sb.freeBlocks - BitVec.ofNat 32 (l ++ [b]).length =
        fs.sb.freeBlocks - BitVec.ofNat 32 l.length - 1#32
      rw [List.length_append, List.length_singleton, BitVec.ofNat_add]
      ring

/-- **The file's inode and blocks** keep the invariant. -/
theorem Inv.hostFile (h : Inv fs) (hfree : findFreeInode fs = some ino) (hnd : assigned.Nodup)
    (hcap : assigned.length ≤ 14)
    (hclear : ∀ b ∈ assigned, b ∈ Bitmap.clearBits fs.blockBitmap 18 4096) :
    Inv (hostFile fs data ino assigned) ∧ ∀ j, j ≠ ino → ∀ s, fs.block j s ≠ 0#32 →
      (hostFile fs data ino assigned).disk (fs.block j s).toNat =
        fs.disk (fs.block j s).toNat := by
  have hlt := findFreeInode_lt hfree
  have htype : ((Pafs.hostFile fs data ino assigned).inode ino).type = pafsTypeFile := by
    rw [inode_hostFile_self hlt]
    rfl
  have hdata : ∀ j, j ≠ ino → ∀ s, fs.block j s ≠ 0#32 →
      (Pafs.hostFile fs data ino assigned).disk (fs.block j s).toNat =
        fs.disk (fs.block j s).toNat := by
    intro j _ s hs
    refine writeChunks_of_not_mem fun hmem => ?_
    exact h.fresh (Bitmap.mem_clearBits.mp (hclear _ hmem)).2 hs rfl
  have hzero : ∀ s, fs.block ino s = 0#32 := by
    intro s
    rw [State.block, h.free ino (findFreeInode_free hfree)]
    exact Table.get_default s
  refine ⟨h.edit (d := ino) (h.toBlocks.hostFile hlt hzero hnd hcap hclear) rfl
    (fun j hj => inode_hostFile_ne hj) hdata
    (fun h0 => absurd h0 (h.free_ne_zero (findFreeInode_free hfree))) (fun hf => ?_) (fun hd => ?_),
    hdata⟩
  · rw [htype] at hf
    exact absurd hf (by decide)
  · rw [htype] at hd
    exact absurd hd (by decide)

/-- The file has no entries, and neither had the free inode. -/
theorem dirent_hostFile (hfree : findFreeInode fs = some ino)
    (hdata : ∀ j, j ≠ ino → ∀ s, fs.block j s ≠ 0#32 →
      (hostFile fs data ino assigned).disk (fs.block j s).toNat = fs.disk (fs.block j s).toNat)
    (p : ℕ × ℕ) : (hostFile fs data ino assigned).dirent p = fs.dirent p := by
  obtain ⟨d, s⟩ := p
  by_cases hd : d = ino
  · subst hd
    have hfile : ((hostFile fs data d assigned).inode d).type ≠ pafsTypeDir := by
      rw [inode_hostFile_self (findFreeInode_lt hfree)]
      exact (by decide : pafsTypeFile ≠ pafsTypeDir)
    rw [dirent_of_not_dir hfile, dirent_of_not_dir (by rw [findFreeInode_free hfree]; decide)]
  · exact dirent_congr (inode_hostFile_ne hd) fun u hu => hdata d hd u hu

end File

/-! ## The entry -/

/-- The states differ at most in bytes of the root's first block that no lookup reads, in metadata
sectors and in the inode counter. -/
structure SamePadding (fs fs' : State) : Prop where
  freeBlocks : fs'.sb.freeBlocks = fs.sb.freeBlocks
  rootInode : fs'.sb.rootInode = fs.sb.rootInode
  inode : ∀ j, fs'.inode j = fs.inode j
  blockBitmap : fs'.blockBitmap = fs.blockBitmap
  data : ∀ lba, 18 ≤ lba → lba ≠ rootLba fs → fs'.disk lba = fs.disk lba
  entryInode : ∀ j < 16,
    entryInode (fs'.disk (rootLba fs)) j = entryInode (fs.disk (rootLba fs)) j
  entryName : ∀ j < 16, Pafs.entryInode (fs.disk (rootLba fs)) j ≠ 0#32 →
    entryName (fs'.disk (rootLba fs)) j = entryName (fs.disk (rootLba fs)) j

namespace SamePadding

variable {fs fs' : State} {n m : ℕ}

theorem slot (hp : SamePadding fs fs') (h : Inv fs) (hl : Layout fs.disk (fs.inode 0) n m) {s : ℕ}
    (hs : s < 16 * m) :
    slotInode fs'.disk (fs.inode 0) s = slotInode fs.disk (fs.inode 0) s ∧
      (slotInode fs.disk (fs.inode 0) s ≠ 0#32 →
        slotName fs'.disk (fs.inode 0) s = slotName fs.disk (fs.inode 0) s) := by
  have hne : fs.block 0 (s / 16) ≠ 0#32 := hl.block_ne_zero (by omega)
  by_cases hfirst : s / 16 = 0
  · have hmod : s % 16 < 16 := Nat.mod_lt _ (by decide)
    simp only [slotInode, slotName, slotBlock, hfirst]
    exact ⟨hp.entryInode _ hmod, hp.entryName _ hmod⟩
  · have hblock : slotBlock fs'.disk (fs.inode 0) s = slotBlock fs.disk (fs.inode 0) s :=
      hp.data _ (h.data hne) fun heq => hfirst (h.inj hne heq).2
    simp only [slotInode, slotName, hblock]
    exact ⟨trivial, fun _ => trivial⟩

theorem layout (hp : SamePadding fs fs') (h : Inv fs) (hl : Layout fs.disk (fs.inode 0) n m) :
    Layout fs'.disk (fs'.inode 0) n m := by
  have hle := hl.le
  rw [hp.inode]
  refine ⟨hl.size, hl.le, hl.cap, hl.alloc, fun s hs => ?_, fun s hs => ?_, fun s hs => ?_⟩
  · rw [(hp.slot h hl hs).1]
    exact hl.occupied s hs
  · rw [(hp.slot h hl (by omega)).1]
    exact hl.range s hs
  · rw [(hp.slot h hl (by omega)).2 ((hl.occupied s (by omega)).mpr hs)]
    exact hl.name s hs

theorem inv (hp : SamePadding fs fs') (h : Inv fs) : Inv fs' := by
  obtain ⟨n, m, hl⟩ := h.dirs 0 h.rootDir
  have hblock : ∀ j s, fs'.block j s = fs.block j s := fun j s => by
    rw [State.block, hp.inode, State.block]
  refine h.edit (d := 0) (h.toBlocks.congr hblock hp.blockBitmap hp.freeBlocks) hp.rootInode
    (fun j _ => hp.inode j) (fun j hj s hs => ?_) (fun _ => ?_) (fun hf => ?_)
    (fun _ => ⟨n, m, hp.layout h hl⟩)
  · exact hp.data _ (h.data hs) fun heq => hj (h.inj hs heq).1
  · rw [hp.inode]
    exact h.rootDir
  · rw [hp.inode, h.rootDir] at hf
    exact absurd hf (by decide)

theorem dirent (hp : SamePadding fs fs') (h : Inv fs) (p : ℕ × ℕ) : fs'.dirent p = fs.dirent p := by
  obtain ⟨d, s⟩ := p
  by_cases hd : d = 0
  · subst hd
    obtain ⟨n, m, hl⟩ := h.dirs 0 h.rootDir
    have hle := hl.le
    have hdir : (fs'.inode 0).type = pafsTypeDir := by
      rw [hp.inode]
      exact h.rootDir
    rw [(hp.layout h hl).dirent_eq hdir, hl.dirent_eq h.rootDir]
    by_cases hs : s < n
    · obtain ⟨hino, hname⟩ := hp.slot h hl (show s < 16 * m by omega)
      rw [if_pos hs, if_pos hs, entryTarget, entryNameAt, hp.inode, hino,
        hname ((hl.occupied s (by omega)).mpr hs)]
      rfl
    · rw [if_neg hs, if_neg hs]
  · exact dirent_congr (hp.inode d) fun u hu =>
      hp.data _ (h.data hu) fun heq => hd (h.inj hu heq).1

end SamePadding

theorem Inv.rootBlock {fs : State} (h : Inv fs) (hroot : fs.block 0 0 ≠ 0#32) : RootBlock fs where
  dir := h.rootDir
  data := h.data hroot
  marked := (h.mem_used hroot).2

section Entry

variable {fs fs' : State} {data : List Byte} {name : List Char} {cname : CString} {ino i n m : ℕ}
  {assigned : List ℕ} {chars : List Byte}

theorem slotInode_first {disk : ℕ → Sector} {s : ℕ} (hs : s < 16) :
    slotInode disk (fs.inode 0) s = entryInode (disk (rootLba fs)) s := by
  rw [slotInode, slotBlock, show s / 16 = 0 by omega, show s % 16 = s by omega]
  rfl

theorem slotName_first {disk : ℕ → Sector} {s : ℕ} (hs : s < 16) :
    slotName disk (fs.inode 0) s = entryName (disk (rootLba fs)) s := by
  rw [slotName, slotBlock, show s / 16 = 0 by omega, show s % 16 = s by omega]
  rfl

/-- The first empty slot of the block is the one after the last entry. -/
theorem Choice.slot_eq (hc : Choice fs data name ino assigned i chars)
    (hl : Layout fs.disk (fs.inode 0) n m) (hroot : fs.block 0 0 ≠ 0#32) : i = n ∧ n < 16 * m := by
  have hm : 0 < m := by
    by_contra hm
    exact hroot (hl.block_eq_zero (by omega))
  obtain ⟨hempty, hi, hfirst⟩ := List.find?_range_eq_some.mp hc.slot
  rw [List.mem_range] at hi
  have hnot : ¬i < n := by
    rw [← hl.occupied i (by omega), slotInode_first hi]
    simpa using hempty
  have hle : ¬n < i := by
    intro hn
    have hocc := (hl.occupied n (by omega)).not.mpr (lt_irrefl n)
    rw [slotInode_first (by omega)] at hocc
    have := hfirst n hn
    simp only [Bool.not_eq_true', decide_eq_false_iff_not] at this
    exact hocc this
  exact ⟨by omega, by omega⟩

/-- The collected blocks are clear data blocks, none of them twice. -/
theorem Choice.assigned_clear (hc : Choice fs data name ino assigned i chars) :
    assigned.Nodup ∧ ∀ b ∈ assigned, b ∈ Bitmap.clearBits fs.blockBitmap 18 4096 := by
  rw [hc.collected]
  exact ⟨(takenFrom_sublist 0 _).nodup (nodup_freeList _), fun b hb => mem_takenFrom hb⟩

/-- **The image after a call** is the kernel's own insertion up to padding, if as many blocks are
collected as are counted. -/
theorem HostStep.samePadding (h : Inv fs) (hroot : fs.block 0 0 ≠ 0#32)
    (hc : Choice fs data name ino assigned i cname.chars)
    (hs : HostStep fs data ino assigned i cname.chars fs') (hnum : assigned.length = blocksFor data) :
    SamePadding (putEntry (hostFile fs data ino assigned) 0 i cname ino) fs' := by
  obtain ⟨n, m, hl⟩ := h.dirs 0 h.rootDir
  obtain ⟨rfl, hroom⟩ := hc.slot_eq hl hroot
  have hi : i < 16 := List.mem_range.mp (List.mem_of_find?_eq_some hc.slot)
  have hino := h.free_ne_zero (findFreeInode_free hc.free)
  have hlt := findFreeInode_lt hc.free
  have hzero : (hostFile fs data ino assigned).inode 0 = fs.inode 0 := inode_hostFile_ne (Ne.symm hino)
  have hdata := h.data hroot
  have hsize : BitVec.ofNat 32 ((fs.inode 0).size.toNat + 32) = (fs.inode 0).size + 32#32 := by
    rw [BitVec.ofNat_add, BitVec.ofNat_toNat, BitVec.setWidth_eq]
  -- the block that the entry goes to
  have hblock : (hostFile fs data ino assigned).block 0 (i / 16) = fs.block 0 0 := by
    rw [State.block, hzero, show i / 16 = 0 by omega]
    rfl
  have hlba : rootLba (putEntry (hostFile fs data ino assigned) 0 i cname ino) = rootLba fs := by
    rw [rootLba, State.block, inode_putEntry_self cname ino (by decide), hzero]
    rfl
  have hold : (hostFile fs data ino assigned).disk (rootLba fs) = fs.disk (rootLba fs) := by
    refine writeChunks_of_not_mem fun hmem => ?_
    exact h.fresh (Bitmap.mem_clearBits.mp (hc.assigned_clear.2 _ hmem)).2 hroot rfl
  have hentry : (putEntry (hostFile fs data ino assigned) 0 i cname ino).disk (rootLba fs) =
      writeEntry (fs.disk (rootLba fs)) i (BitVec.ofNat 32 ino) cname := by
    have hput : (putEntry (hostFile fs data ino assigned) 0 i cname ino).disk
        ((hostFile fs data ino assigned).block 0 (i / 16)).toNat = _ :=
      disk_putEntry_self cname ino (by decide) (by rw [hblock]; exact hdata)
    rw [hblock, hold, Nat.mod_eq_of_lt hi] at hput
    exact hput
  refine ⟨?_, ?_, fun j => ?_, hs.blockBitmap, fun lba hge hne => ?_, fun j hj => ?_, fun j hj hj0 => ?_⟩
  · -- the counters of free blocks
    rw [hs.sb]
    change BitVec.ofNat 32 (fs.sb.freeBlocks.toNat - blocksFor data) =
      fs.sb.freeBlocks - BitVec.ofNat 32 assigned.length
    have hblocks := hc.blocks
    have hmax := fs.sb.freeBlocks.isLt
    rw [hnum]
    refine BitVec.eq_of_toNat_eq ?_
    rw [BitVec.toNat_sub, BitVec.toNat_ofNat, BitVec.toNat_ofNat]
    omega
  · rw [hs.sb]
    rfl
  · -- the inodes: the root's, the new one, and the others
    by_cases hj0 : j = 0
    · subst hj0
      rw [hs.root, inode_putEntry_self cname ino (by decide), hzero, hsize]
    · rw [inode_putEntry_ne cname ino hj0]
      by_cases hj : j = ino
      · subst hj
        rw [hs.new, inode_hostFile_self hlt]
      · rw [hs.other j hj0 hj, inode_hostFile_ne hj]
  · -- the sectors other than the root's
    rw [hlba] at hne
    rw [hs.data lba hge hne, disk_putEntry_ne cname ino (by decide) hge (by rw [hblock]; exact hne)]
    rfl
  · rw [hlba, hs.entry, hentry]
    by_cases hji : j = i
    · subst hji
      rw [entryInode_packEntry _ hj, entryInode_writeEntry _ hj]
    · rw [(packEntry_of_ne _ hji _ _).inode, (writeEntry_of_ne _ hji _ _).inode]
  · -- the names, of which the two sides may pad the old ones differently
    rw [hlba, hentry] at hj0
    rw [hlba, hs.entry, hentry]
    by_cases hji : j = i
    · subst hji
      rw [entryName_packEntry _ hj _ cname.noNul, entryName_writeEntry _ hj]
    · rw [(writeEntry_of_ne _ hji _ _).inode, ← slotInode_first hj] at hj0
      have hjn := (hl.occupied j (by omega)).mp hj0
      have hlen := hl.name j hjn
      rw [slotName_first hj] at hlen
      rw [(packEntry_of_ne _ hji _ _).name hj hj hlen, (writeEntry_of_ne _ hji _ _).name hj hj hlen]

end Entry

/-! ## Reading the file -/

section Read

variable {fs : State} {data : List Byte} {assigned : List ℕ}

theorem length_le_blocksFor (data : List Byte) : data.length ≤ 512 * blocksFor data := by
  unfold blocksFor
  omega

theorem blockBytes_chunk {i n : ℕ} (hn : n ≤ 512) (hlen : 512 * i + n ≤ data.length) :
    blockBytes (chunk data i) 0 n = (data.drop (512 * i)).take n := by
  apply List.ext_getElem
  · simp [blockBytes]
    omega
  · intro k h₁ h₂
    have hk : k < n := by simpa [blockBytes] using h₁
    simp only [blockBytes, List.getElem_map, List.getElem_range, Nat.zero_add, chunk]
    rw [Table.get_ofFn _ (by omega), List.getElem_take, List.getElem_drop,
      List.getD_eq_getElem _ _ (by simp; omega), List.getElem_take, List.getElem_drop]

/-- **The read loop** on the new file returns the data from its block on. -/
theorem readLoop_hostFile (hcap : assigned.length ≤ 14) (hlen : data.length ≤ 512 * assigned.length)
    (hrange : ∀ b ∈ assigned, 18 ≤ b ∧ b < 4096)
    (hdisk : ∀ k (hk : k < assigned.length), fs.disk assigned[k] = chunk data k) {r i : ℕ}
    (hr : i + r = 14) :
    readLoop fs (packInode data.length assigned) r i (data.length - 512 * i) =
      data.drop (512 * i) := by
  induction r generalizing i with
  | zero =>
    rw [readLoop, List.drop_eq_nil_of_le (by omega)]
  | succ r ih =>
    rw [readLoop, block_packInode hcap]
    by_cases hleft : 512 * i < data.length
    · have hi : i < assigned.length := by omega
      obtain ⟨hge, hlt⟩ := hrange _ (List.getElem_mem hi)
      have hword := toNat_ofNat_of_lt hlt
      have hne : BitVec.ofNat 32 assigned[i] ≠ 0#32 := by
        intro h0
        rw [h0] at hword
        simp at hword
        omega
      rw [List.getD_eq_getElem _ _ hi, if_pos ⟨by omega, hne⟩]
      dsimp only
      -- this block, then the loop from the next one on
      rw [pafsDiskRead, hword, hdisk i hi, blockBytes_chunk (by omega) (by omega)]
      have hrest := @ih (i + 1) (by omega)
      by_cases hlast : data.length - 512 * i ≤ 512
      · rw [show data.length - 512 * (i + 1) = 0 by omega, List.drop_eq_nil_of_le (by omega)] at hrest
        rw [show min (data.length - 512 * i) 512 = data.length - 512 * i by omega, Nat.sub_self, hrest,
          List.append_nil, List.take_of_length_le (by simp)]
      · rw [show min (data.length - 512 * i) 512 = 512 by omega,
          show data.length - 512 * i - 512 = data.length - 512 * (i + 1) by omega, hrest,
          show 512 * (i + 1) = 512 * i + 512 by omega, ← List.drop_drop, List.take_append_drop]
    · rw [if_neg (by omega), List.drop_eq_nil_of_le (by omega)]

/-- **`pafs_read`** of a file whose contents the read loop returns. -/
theorem pafsRead_of_found {k : Kernel} {cname : CString} {ino : ℕ} {maxLen : ℤ}
    (hroot : k.fs.sb.rootInode = 0#32) (hfind : pafsFindEntry k.fs 0 cname = (ino : ℕ))
    (hfile : k.fs.inode ino = packInode data.length assigned) (hshort : data.length ≤ 7168)
    (hread : readLoop k.fs (packInode data.length assigned) 14 0 data.length = data)
    (hmax : data.length ≤ maxLen) :
    (pafsRead k cname maxLen).2 =
      ((data.length : ℤ), data ++ if (data.length : ℤ) < maxLen then [0#8] else []) := by
  have hsize : (packInode data.length assigned).size.toInt = data.length := by
    have hword : (BitVec.ofNat 32 data.length).toNat = data.length := by
      rw [BitVec.toNat_ofNat]
      omega
    change (BitVec.ofNat 32 data.length).toInt = _
    rw [BitVec.toInt_eq_toNat_of_lt (by omega), hword]
  have htype : (packInode data.length assigned).type = pafsTypeFile := rfl
  simp only [pafsRead, Kernel.fs_touchDisk, Kernel.fs_lock, hroot, BitVec.toNat_ofNat, Nat.zero_mod,
    hfind, Int.toNat_natCast, hfile, htype, hsize]
  rw [if_neg (by omega), if_neg (by simp), min_eq_left hmax, Int.toNat_natCast, hread]

end Read

/-! ## Agreement -/

section Agree

variable {fs fs' : State} {data : List Byte} {name : List Char} {cname : CString} {ino i : ℕ}
  {assigned : List ℕ}

/-- The image after a call has the invariant and one more entry. -/
theorem HostStep.inv_dirent (h : Inv fs) (hroot : fs.block 0 0 ≠ 0#32)
    (hc : Choice fs data name ino assigned i cname.chars)
    (hs : HostStep fs data ino assigned i cname.chars fs') (hnum : assigned.length = blocksFor data) :
    Inv fs' ∧ fs.dirent (0, i) = none ∧
      ∀ p, fs'.dirent p = if p = (0, i) then some (ino, cname.chars.take 27) else fs.dirent p := by
  obtain ⟨hnd, hclear⟩ := hc.assigned_clear
  obtain ⟨hfile, hdata⟩ := @Inv.hostFile _ data _ _ h hc.free hnd hc.cap hclear
  have hp := hs.samePadding h hroot hc hnum
  have hino := h.free_ne_zero (findFreeInode_free hc.free)
  have hzero : (hostFile fs data ino assigned).inode 0 = fs.inode 0 := inode_hostFile_ne (Ne.symm hino)
  -- the root of the state with the file is laid out as before
  obtain ⟨n, m, hl⟩ := h.dirs 0 h.rootDir
  obtain ⟨rfl, hroom⟩ := hc.slot_eq hl hroot
  have hl' : Layout (hostFile fs data ino assigned).disk ((hostFile fs data ino assigned).inode 0)
      i m := by
    rw [hzero]
    exact hl.congr fun s _ hs => hdata 0 (Ne.symm hino) s hs
  have hput : Inv (putEntry (hostFile fs data ino assigned) 0 i cname ino) :=
    (hfile.put hfile.rootDir hl' hroom (Nat.pos_of_ne_zero hino) (findFreeInode_lt hc.free)).1
  refine ⟨hp.inv hput, ?_, fun p => ?_⟩
  · rw [hl.dirent_eq h.rootDir, if_neg (lt_irrefl i)]
  · rw [hp.dirent hput, dirent_putEntry hfile hfile.rootDir hl' hroom (Nat.pos_of_ne_zero hino)
      (findFreeInode_lt hc.free), dirent_hostFile hc.free hdata]

/-- The kernel finds the new name. -/
theorem HostStep.findEntry (h : Inv fs) (hroot : fs.block 0 0 ≠ 0#32)
    (hc : Choice fs data name ino assigned i cname.chars)
    (hs : HostStep fs data ino assigned i cname.chars fs') (hnum : assigned.length = blocksFor data)
    (hname : cname.chars.length ≤ 27) (habsent : pafsFindEntry fs 0 cname = -1) :
    pafsFindEntry fs' 0 cname = (ino : ℕ) := by
  obtain ⟨hinv, -, hdirent⟩ := hs.inv_dirent h hroot hc hnum
  rw [List.take_of_length_le hname] at hdirent
  have hnone := (pafsFindEntry_eq_neg_one_iff h 0 cname).mp habsent
  rcases hinv.findEntry_cases 0 cname with hmiss | ⟨found, t, n, m, hfind, hf⟩
  · have hnew := hdirent (0, i)
    rw [if_pos rfl] at hnew
    exact absurd rfl ((pafsFindEntry_eq_neg_one_iff hinv 0 cname).mp hmiss i _ hnew)
  · have hentry := hf.dirent
    rw [hdirent] at hentry
    split at hentry
    · obtain ⟨rfl, -⟩ := Prod.mk.inj (Option.some.inj hentry)
      exact hfind
    · exact absurd rfl (hnone t _ hentry)

/-- **A call that collects what it counts** leaves an image on which the kernel agrees. -/
theorem HostStep.agrees (h : ImageInv fs) (hroot : fs.block 0 0 ≠ 0#32)
    (hc : Choice fs data name ino assigned i cname.chars)
    (hs : HostStep fs data ino assigned i cname.chars fs') (hnum : assigned.length = blocksFor data)
    (hname : cname.chars.length ≤ 27) (habsent : pafsFindEntry fs 0 cname = -1) :
    AgreesAfter fs data cname fs' := by
  obtain ⟨hinv, hempty, hdirent⟩ := hs.inv_dirent h.toInv hroot hc hnum
  obtain ⟨hnd, hclear⟩ := hc.assigned_clear
  have hlt := findFreeInode_lt hc.free
  have hfree := findFreeInode_free hc.free
  have hrange : ∀ b ∈ assigned, 18 ≤ b ∧ b < 4096 := fun b hb =>
    (Bitmap.mem_clearBits.mp (hclear b hb)).1
  have hunmarked : ∀ {j s}, fs.block j s ≠ 0#32 → (fs.block j s).toNat ∉ assigned := fun hne hmem =>
    h.fresh (Bitmap.mem_clearBits.mp (hclear _ hmem)).2 hne rfl
  refine ⟨⟨hinv, ?_, ?_⟩, fun k maxLen hk hmax => ?_, fun j hj0 hj => ?_, fun p e he => ?_⟩
  · rw [hs.sb]
    exact h.magic
  · have hcard := card_freeInodes_take hlt hfree (show (fs'.inode ino).type ≠ _ by
      rw [hs.new]
      exact (by decide : pafsTypeFile ≠ pafsTypeFree)) fun j hj => by
        by_cases hj0 : j = 0
        · subst hj0
          rw [hs.root]
        · rw [hs.other j hj0 hj]
    have hcount := h.inodeCount
    rw [hs.sb, BitVec.toNat_ofNat, Nat.mod_eq_of_lt (by omega)]
    omega
  · subst hk
    have hshort := hc.short
    refine pafsRead_of_found hinv.root (hs.findEntry h.toInv hroot hc hnum hname habsent) hs.new
      hshort ?_ hmax
    have hlen := length_le_blocksFor data
    refine readLoop_hostFile hc.cap (by omega) hrange (fun b hb => ?_) rfl
    -- the root's block is not one of the collected
    have hmem := List.getElem_mem hb
    have hne : assigned[b] ≠ rootLba fs := fun heq => by
      rw [heq] at hmem
      exact hunmarked hroot hmem
    rw [hs.data _ (hrange _ hmem).1 hne, writeChunks_getElem hnd hb, Nat.zero_add]
  · have hji : j ≠ ino := fun heq => hj (heq ▸ hfree)
    refine ⟨hs.other j hj0 hji, fun s hne => ?_⟩
    rw [hs.data _ (h.data hne) fun heq => hj0 (h.inj hne heq).1,
      writeChunks_of_not_mem (hunmarked hne)]
  · rw [hdirent, if_neg, he]
    rintro rfl
    rw [hempty] at he
    exact absurd he (by simp)

/-- The calls that agree with the kernel: the file is not empty or no block is free, and the names in
the root's first block are ASCII. -/
structure Agreeable (fs : State) (data : List Byte) : Prop where
  stops : data ≠ [] ∨ Bitmap.clearCount fs.blockBitmap 18 4096 = 0
  ascii : ∀ j < 16, entryInode (fs.disk (rootLba fs)) j ≠ 0#32 →
    ∀ c ∈ entryName (fs.disk (rootLba fs)) j, c.toNat < 128

/-- The number of blocks that the loop takes. -/
theorem length_takenFrom {numBlocks : ℕ} {bitmap : Table 512 Byte} :
    (takenFrom numBlocks 0 (freeList bitmap)).length =
      if 0 < numBlocks then min numBlocks (Bitmap.clearCount bitmap 18 4096)
      else Bitmap.clearCount bitmap 18 4096 := by
  unfold takenFrom
  split
  · rw [List.length_take, length_freeList, Nat.sub_zero]
  · exact length_freeList bitmap

theorem blocksFor_eq_zero : blocksFor data = 0 ↔ data = [] := by
  rw [← List.length_eq_zero_iff]
  unfold blocksFor
  omega

/-- The loop collects what is counted, unless it has nothing to count. -/
theorem Agreeable.length_takenFrom (ha : Agreeable fs data)
    (hblocks : blocksFor data ≤ Bitmap.clearCount fs.blockBitmap 18 4096) :
    (takenFrom (blocksFor data) 0 (freeList fs.blockBitmap)).length = blocksFor data := by
  rw [Pafs.length_takenFrom]
  split
  · omega
  · next hzero =>
    have hnil := blocksFor_eq_zero.mp (Nat.eq_zero_of_not_pos hzero)
    rcases ha.stops with hne | hnone
    · exact absurd hnil hne
    · omega

/-- An occupied slot of the root's first block has a short name. -/
theorem entryName_first_le {n m j : ℕ} (hl : Layout fs.disk (fs.inode 0) n m)
    (hroot : fs.block 0 0 ≠ 0#32) (hj : j < 16) (hne : entryInode (fs.disk (rootLba fs)) j ≠ 0#32) :
    j < n ∧ (entryName (fs.disk (rootLba fs)) j).length ≤ 27 := by
  have hm : 0 < m := by
    by_contra hm
    exact hroot (hl.block_eq_zero (by omega))
  rw [← slotInode_first hj, hl.occupied j (by omega)] at hne
  rw [← slotName_first hj]
  exact ⟨hne, hl.name j hne⟩

/-- The script finds no entry of the name, and can decode them all, exactly when they are ASCII. -/
theorem Ready.checkNames_iff (hr : Ready fs data name cname) :
    checkNames (fs.disk (rootLba fs)) name (List.range 16) = none ↔
      ∀ j < 16, entryInode (fs.disk (rootLba fs)) j ≠ 0#32 →
        ∀ c ∈ entryName (fs.disk (rootLba fs)) j, c.toNat < 128 := by
  obtain ⟨n, m, hl⟩ := hr.image.dirs 0 hr.image.rootDir
  rw [checkNames_eq_none_iff]
  simp only [List.mem_range]
  refine forall₂_congr fun j hj => forall_congr' fun hne => ?_
  obtain ⟨hjn, hlen⟩ := entryName_first_le hl hr.block hj hne
  rw [entryField_eq hj hlen, ← decodeAscii_eq_some_iff]
  constructor
  · rintro ⟨s, hs, -⟩
    exact ⟨s, hs⟩
  · rintro ⟨s, hs⟩
    refine ⟨s, hs, ?_⟩
    rintro rfl
    -- an entry of the name would be found by the kernel
    have hname : entryName (fs.disk (rootLba fs)) j = cname.chars :=
      Option.some.inj ((encodeAscii_decodeAscii hs).symm.trans hr.encoded)
    have hentry := hl.dirent_eq hr.image.rootDir j
    rw [if_pos hjn] at hentry
    refine (pafsFindEntry_eq_neg_one_iff hr.image.toInv 0 cname).mp hr.absent j _ hentry ?_
    exact (slotName_first hj).trans hname

/-- With the room there is, every check of the script passes. -/
theorem Ready.choice (hr : Ready fs data name cname) (ha : Agreeable fs data) :
    ∃ ino i, Choice fs data name ino (takenFrom (blocksFor data) 0 (freeList fs.blockBitmap)) i
      cname.chars := by
  obtain ⟨n, m, hl⟩ := hr.image.dirs 0 hr.image.rootDir
  have hnum := ha.length_takenFrom hr.blocks
  obtain ⟨ino, hino⟩ : ∃ ino, findFreeInode fs = some ino := by
    obtain ⟨j, hj, hfree⟩ := hr.inode
    refine Option.ne_none_iff_exists'.mp fun hnone => ?_
    exact findFreeInode_none.mp hnone j hj hfree
  obtain ⟨i, hi⟩ : ∃ i, (List.range 16).find? (fun i =>
      entryInode (fs.disk (rootLba fs)) i = 0#32) = some i := by
    obtain ⟨j, hj, hempty⟩ := hr.slot
    refine Option.ne_none_iff_exists'.mp fun hnone => ?_
    simpa [hempty] using List.find?_eq_none.mp hnone j (List.mem_range.mpr hj)
  refine ⟨ino, i, hr.image.magic, hino, hr.short, rfl, hnum.ge, ?_, hr.checkNames_iff.mpr ha.ascii, hi,
    hr.encoded, ?_, ?_, ?_⟩
  · have := hr.short
    rw [hnum, blocksFor]
    omega
  · rw [hr.image.count]
    exact hr.blocks
  · rw [hr.image.inodeCount]
    exact Finset.card_pos.mpr ⟨ino, mem_freeInodes.mpr (findFreeInode_some.mp hino).1⟩
  · have := hl.size
    have := hl.entries_lt
    omega

/-- An image that still counts its blocks after an empty file had none free before it. -/
theorem HostStep.stops (h : Inv fs) (hc : Choice fs data name ino assigned i cname.chars)
    (hs : HostStep fs data ino assigned i cname.chars fs') (h' : Inv fs') :
    data ≠ [] ∨ Bitmap.clearCount fs.blockBitmap 18 4096 = 0 := by
  refine or_iff_not_imp_left.mpr fun hnil => ?_
  have hzero := blocksFor_eq_zero.mpr (not_not.mp hnil)
  obtain ⟨hnd, hclear⟩ := hc.assigned_clear
  have hlen : assigned.length = Bitmap.clearCount fs.blockBitmap 18 4096 := by
    rw [hc.collected, Pafs.length_takenFrom, if_neg (by omega)]
  have hbits : ∀ b ∈ assigned, b < 8 * 512 := fun b hb => Bitmap.lt_of_mem_clearBits (hclear b hb)
  -- all of them are marked, none is counted
  have hmarked := Bitmap.clearCount_foldl_set hnd hbits hclear
  have hcount := h'.count
  have hmax := fs.sb.freeBlocks.isLt
  rw [hs.sb, hs.blockBitmap, hzero, Nat.sub_zero, BitVec.toNat_ofNat, Nat.mod_eq_of_lt hmax,
    h.count] at hcount
  omega

/-- A call after which the kernel agrees is one of those. -/
theorem Ready.agreeable {disk : ℕ → Sector} (hr : Ready (pafsInitRead disk) data name cname)
    (hres : (addFileToPafs disk data name).2 = .added)
    (hafter : Inv (pafsInitRead (addFileToPafs disk data name).1)) :
    Agreeable (pafsInitRead disk) data := by
  obtain ⟨ino, bitmap, assigned, i, chars, hadd⟩ := added_of_snd hres
  obtain ⟨hc, hs⟩ := hadd.hostStep (hr.image.rootBlock hr.block)
  obtain rfl := Option.some.inj (hc.encoded.symm.trans hr.encoded)
  exact ⟨hs.stops hr.image.toInv hc hafter, hr.checkNames_iff.mp hc.names⟩

/-- The kernel agrees after each of those. -/
theorem Ready.agrees {disk : ℕ → Sector} (hr : Ready (pafsInitRead disk) data name cname)
    (ha : Agreeable (pafsInitRead disk) data) :
    (addFileToPafs disk data name).2 = .added ∧
      AgreesAfter (pafsInitRead disk) data cname (pafsInitRead (addFileToPafs disk data name).1) := by
  have hroot := hr.image.rootBlock hr.block
  obtain ⟨_, _, hc⟩ := hr.choice ha
  have hres := hc.added hroot
  obtain ⟨ino, bitmap, assigned, i, chars, hadd⟩ := addFileToPafs_added.mp hres
  obtain ⟨hc', hs⟩ := hadd.hostStep hroot
  obtain rfl := Option.some.inj (hc'.encoded.symm.trans hr.encoded)
  have hnum : assigned.length = blocksFor data := by
    rw [hc'.collected, ha.length_takenFrom hr.blocks]
  exact ⟨congrArg Prod.snd hres, hs.agrees hr.image hr.block hc' hnum hr.nameLen hr.absent⟩

/-- **The host script agrees with the kernel** exactly on files that are not empty, or on a full disk,
and only if the names in the root's first block are ASCII. -/
theorem host_add_agrees_iff (disk : ℕ → Sector) (data : List Byte) (name : List Char)
    (cname : CString) (hr : Ready (pafsInitRead disk) data name cname) :
    ((addFileToPafs disk data name).2 = .added ∧
      AgreesAfter (pafsInitRead disk) data cname (pafsInitRead (addFileToPafs disk data name).1)) ↔
    Agreeable (pafsInitRead disk) data :=
  ⟨fun h => hr.agreeable h.1 h.2.image.toInv, fun ha => hr.agrees ha⟩

end Agree

/-! ### A disk the kernel has formatted -/

section Format

variable (fs : State)

theorem initRead_formatState : pafsInitRead (formatState fs).disk = formatState fs :=
  (Synced.format fs).pafsInitRead_eq

theorem clearCount_format : Bitmap.clearCount (formatState fs).blockBitmap 18 4096 = 4077 := by
  rw [← (Inv.format fs).count, formatState_eq, saveMetadata_eq]
  exact (by decide : (BitVec.ofNat 32 (pafsTotalBlocks - lbaDataStart) - 1#32).toNat = 4077)

/-- The slots of the formatted root are empty. -/
theorem entryInode_format {j : ℕ} (hj : j < 16) :
    entryInode ((formatState fs).disk (rootLba (formatState fs))) j = 0#32 := by
  rw [← slotInode_first hj]
  exact not_not.mp fun hne => absurd (((layout_format fs).occupied j (by omega)).mp hne) (by omega)

/-- There is room for any file that is not too long. -/
theorem ready_format {data : List Byte} (hshort : data.length ≤ 7168) :
    Ready (formatState fs) data ['a'] ⟨[0x61#8], by decide⟩ where
  image := ⟨Inv.format fs, by rw [formatState_eq, saveMetadata_eq]; rfl,
    (Namespace.format fs).counter⟩
  short := hshort
  encoded := rfl
  nameLen := by decide
  absent := by
    refine (pafsFindEntry_eq_neg_one_iff (Inv.format fs) 0 _).mpr fun s e he => ?_
    rw [(layout_format fs).dirent_eq (Inv.format fs).rootDir, if_neg (by omega)] at he
    exact absurd he (by simp)
  inode := ⟨1, by decide, by rw [inode_format_ne fs (by decide)]; rfl⟩
  blocks := by
    rw [clearCount_format, blocksFor]
    omega
  block := (layout_format fs).block_ne_zero (by decide)
  slot := ⟨0, by decide, entryInode_format fs (by decide)⟩

end Format

/-- One byte on a formatted disk. -/
theorem host_add_agrees_one_byte :
    (addFileToPafs (formatState ramdiskKernel.fs).disk [0x41#8] ['a']).2 = .added ∧
      AgreesAfter (pafsInitRead (formatState ramdiskKernel.fs).disk) [0x41#8]
        ⟨[0x61#8], by decide⟩
        (pafsInitRead (addFileToPafs (formatState ramdiskKernel.fs).disk [0x41#8] ['a']).1) := by
  refine (host_add_agrees_iff _ _ _ _ ?_).mpr ?_
  · rw [initRead_formatState]
    exact ready_format _ (by decide)
  · rw [initRead_formatState]
    exact ⟨Or.inl (by simp), fun j hj hne => absurd (entryInode_format _ hj) hne⟩

/-- An empty file is not added to a formatted disk: the loop takes all 4077 free blocks, and an inode
has no place for their numbers. -/
theorem empty_file_not_added :
    Ready (pafsInitRead (formatState ramdiskKernel.fs).disk) [] ['a'] ⟨[0x61#8], by decide⟩ ∧
      (addFileToPafs (formatState ramdiskKernel.fs).disk [] ['a']).2 ≠ .added := by
  have hr : Ready (pafsInitRead (formatState ramdiskKernel.fs).disk) [] ['a']
      ⟨[0x61#8], by decide⟩ := by
    rw [initRead_formatState]
    exact ready_format _ (by decide)
  refine ⟨hr, fun hres => ?_⟩
  obtain ⟨ino, bitmap, assigned, i, chars, hadd⟩ := added_of_snd hres
  have hcap := hadd.cap
  obtain ⟨hc, -⟩ := hadd.hostStep (hr.image.rootBlock hr.block)
  have hlen : assigned.length = 4077 := by
    rw [hc.collected, length_takenFrom, if_neg (by decide), initRead_formatState]
    exact clearCount_format _
  omega

end PekerOS.Pafs
