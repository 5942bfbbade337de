import PekerOS.Fs.Pafs.Deletion
import PekerOS.Fs.Pafs.RoundTrip

/-!
# PAFS: files along runs

When files are written only at offsets inside them or at their end, which is all that the system calls
can do, every byte below the size of a file lies in a block of the file. A write then splices its
buffer in, and a read returns what lies between the offset and the end of the file, except that
`pafs_vfs_read` compares the size with a 32-bit sum that can wrap: a huge size at a non-zero offset is
not cut, and the loop runs on through all 14 block slots.

## Main definitions

* `Whole fs`: every file is no longer than its blocks and has no holes
* `WithinFile k op`: the call does not write behind the end of a file
* `pafsVfsReadLbas`: the sectors that `pafs_vfs_read` reads
* `ReadsFile k ino offset size`: a read returns the bytes of the file and reads its blocks only

## Main results

* `Whole.step`, `run_whole`: the invariant
* `vfs_write_splices`: **writing splices**
* `pafsVfsRead_congr`: a read depends on the sectors listed
* `vfs_read_exact_iff`: **reading is exact unless the sum of offset and size wraps**
-/

namespace PekerOS.Pafs

/-- Every file is no longer than its blocks and has no holes. -/
structure Whole (fs : State) : Prop where
  sizes : FileSizes fs
  holes : ∀ i, (fs.inode i).type = pafsTypeFile → NoHoles fs i

/-- A call of `pafs_vfs_write` on a file has an offset not above the size. -/
def WithinFile (k : Kernel) : Op → Prop
  | .vfsWrite ino offset _ _ =>
    (k.fs.inode ino).type = pafsTypeFile → offset.toNat ≤ (k.fs.inode ino).size.toNat
  | _ => True

/-! ## The invariant -/

section Invariant

variable {k : Kernel} {fs fs' : State}

/-- Holes are seen in the inode. -/
theorem NoHoles.congr {i : ℕ} (h : NoHoles fs i) (hinode : fs'.inode i = fs.inode i) : NoHoles fs' i := by
  intro p hp
  rw [hinode] at hp
  rw [State.block, hinode]
  exact h p hp

theorem NoHoles.of_size_zero {i : ℕ} (h : (fs.inode i).size = 0#32) : NoHoles fs i := by
  intro p hp
  rw [h] at hp
  exact absurd hp (Nat.not_lt_zero p)

namespace Whole

theorem onlyFile {ino : ℕ} (hw : Whole fs) (ho : OnlyFile ino fs fs') (hs : FileSizes fs')
    (hself : (fs.inode ino).type = pafsTypeFile → NoHoles fs' ino) : Whole fs' where
  sizes := hs
  holes i hi := by
    by_cases hino : i = ino
    · subst hino
      exact hself (ho.type.symm.trans hi)
    · rw [ho.inode i hino] at hi
      exact (hw.holes i hi).congr (ho.inode i hino)

theorem format (fs : State) : Whole (formatState fs) where
  sizes := FileSizes.format fs
  holes i hi := by
    by_cases h0 : i = 0
    · subst h0
      rw [(Inv.format fs).rootDir] at hi
      exact absurd hi (by decide)
    · exact NoHoles.of_size_zero (by rw [inode_format_ne fs h0]; rfl)

theorem created {d new n m : ℕ} {name : CString} {isDir : Bool} {mid : State} (hw : Whole fs)
    (hcr : Created fs d name isDir new n m mid fs') : Whole fs' where
  sizes := hw.sizes.created hcr
  holes i hi := by
    have hparent := hcr.ne_parent hi
    by_cases hnew : i = new
    · subst hnew
      exact NoHoles.of_size_zero (by rw [hcr.inode_new hparent])
    · have hsame := hcr.inode_ne hnew hparent
      rw [hsame] at hi
      exact (hw.holes i hi).congr hsame

theorem deleted {d ino t n m : ℕ} {name : CString} (hw : Whole fs)
    (hdel : Deleted fs d name ino t n m fs') : Whole fs' where
  sizes := hw.sizes.deleted hdel
  holes i hi := by
    obtain ⟨hparent, hino⟩ := hdel.ne_of_file hi
    have hsame := hdel.inode_other hparent hino
    rw [hsame] at hi
    exact (hw.holes i hi).congr hsame

theorem create (h : Inv k.fs) (hw : Whole k.fs) {d : ℕ} (hd : d < 128) (name : CString) (isDir : Bool) :
    Whole (pafsCreate k d name isDir).1.fs :=
  pafsCreate_keeps h hd name isDir hw fun hcr => hw.created hcr

theorem writeFile (h : Inv k.fs) (hw : Whole k.fs) (ino : ℕ) (data : ℕ → Byte) (len : ℤ) :
    Whole (pafsWriteFile k ino data len).1.fs := by
  refine hw.onlyFile (h.writeFile ino data len).2 (hw.sizes.writeFile h ino data len) fun ht => ?_
  obtain ⟨w, -, -, -, hholes⟩ := @pafsWriteFile_laid ino data k len h ht
  exact hholes

/-- **One call** that does not write behind the end of a file leaves no holes. -/
theorem step (h : Inv k.fs) (hw : Whole k.fs) (op : Op) (hop : WithinFile k op) :
    Whole (step k op).fs := by
  cases op with
  | create parentIno name isDir => exact hw.create h parentIno.isLt name isDir
  | mkdir parentIno name => exact hw.create h parentIno.isLt name true
  | delete parentIno name => exact pafsDelete_keeps h parentIno name hw fun hdel => hw.deleted hdel
  | write name data len =>
    refine pafsWrite_keeps h name data len hw (fun hcr => hw.created hcr) fun ino h' hw' => ?_
    exact hw'.writeFile h' ino data len
  | vfsWrite ino offset size buffer =>
    refine pafsVfsWrite_keeps hw fun ht => ?_
    -- a write that starts within the file leaves no block out
    have hoff := hop ht
    have hcap := hw.sizes ino ht
    refine hw.onlyFile (h.vfsWrite ino offset size buffer).2
      (hw.sizes.vfsWrite h ino (by omega) size buffer) fun _ => ?_
    exact (@pafsVfsWrite_filled _ k offset size buffer h hw.sizes ht (hw.holes ino ht) hoff).2.1
  | format =>
    rw [Pafs.step, fs_pafsFormat]
    exact format k.fs

end Whole

/-- **A run** without writes behind the end of a file leaves no holes. -/
theorem run_whole (k₀ : Kernel) {ops : List Op} (hops : Steps step WithinFile (pafsFormat k₀) ops) :
    Whole (run (pafsFormat k₀) ops).fs := by
  have h : Inv (pafsFormat k₀).fs := by
    rw [fs_pafsFormat]
    exact Inv.format k₀.fs
  have hw : Whole (pafsFormat k₀).fs := by
    rw [fs_pafsFormat]
    exact Whole.format k₀.fs
  exact (along_of_steps (P := fun k : Kernel => Whole k.fs) (I := fun k : Kernel => Inv k.fs)
    (fun h => h.step _) (fun h hw hop => hw.step h _ hop) h hw hops).final

end Invariant

/-! ## Writing -/

/-- **Writing splices**: after calls that write files only at offsets not above their size, such a write
puts `w` bytes of the buffer at the offset and keeps the rest of the file; `w` is all that fits into 14
blocks when there is a free block for every one missing, and else less, with no block left. Nothing
else changes. -/
theorem vfs_write_splices (k₀ : Kernel) (ops : List Op)
    (hops : Steps step WithinFile (pafsFormat k₀) ops) (ino : ℕ) (offset size : Word)
    (buffer : ℕ → Byte) :
    let k := run (pafsFormat k₀) ops
    let k' := (pafsVfsWrite k ino offset size buffer).1
    let w := (pafsVfsWrite k ino offset size buffer).2
    let c := fileBytes k.fs ino
    let full := min size.toNat (7168 - offset.toNat)
    let missing := (missingBlocks k.fs ino ((offset.toNat + full + 511) / 512)).card
    (k.fs.inode ino).type = pafsTypeFile → offset.toNat ≤ (k.fs.inode ino).size.toNat →
      (missing ≤ k.fs.sb.freeBlocks.toNat → w = full) ∧
      (k.fs.sb.freeBlocks.toNat < missing → w < full ∧ findFreeBlock k'.fs = none) ∧
      fileBytes k'.fs ino = c.take offset.toNat ++ (List.range w).map buffer ++ c.drop (offset.toNat + w) ∧
      (∀ j, j ≠ ino → Untouched j k.fs k'.fs) ∧ ∀ d, dirEntries k'.fs d = dirEntries k.fs d := by
  intro k k' w c full missing ht hoff
  have h : Inv k.fs := Reachable.inv ⟨k₀, ops, rfl⟩
  have hw := run_whole k₀ hops
  obtain ⟨-, ho⟩ := h.vfsWrite ino offset size buffer
  obtain ⟨hbytes, hholes, hfill⟩ : fileBytes k'.fs ino =
      c.take offset.toNat ++ (List.range w).map buffer ++ c.drop (offset.toNat + w) ∧
      NoHoles k'.fs ino ∧ Filled ino offset.toNat full w k.fs k'.fs :=
    pafsVfsWrite_filled h hw.sizes ht (hw.holes ino ht) hoff
  rw [h.count]
  refine ⟨fun henough => (hfill.full (by omega) henough).1, fun hfew => ?_, hbytes,
    fun j hj => Untouched.of_onlyFile ho hj,
    fun d => dirEntries_congr fun s => ho.dirent (by rw [ht]; decide) (d, s)⟩
  have hshort : w < full := by
    refine lt_of_le_of_ne hfill.le fun hall => ?_
    -- with everything written no slot is empty, so each missing block was a free one
    have hlength : offset.toNat + w ≤ (k'.fs.inode ino).size.toNat := by
      have hbytes' := congrArg List.length hbytes
      simp only [c, fileBytes, List.length_map, List.length_range, List.length_append, List.length_take,
        List.length_drop] at hbytes'
      omega
    have hnone : missingBlocks k'.fs ino ((offset.toNat + full + 511) / 512) = ∅ := by
      refine Finset.filter_eq_empty_iff.mpr fun i hi => ?_
      have hlt := Finset.mem_range.mp hi
      have hblock := hholes (512 * i) (by omega)
      rwa [show 512 * i / 512 = i by omega] at hblock
    have hbalance : _ + _ = _ + _ := hfill.balance ((offset.toNat + full + 511) / 512) (by omega)
    rw [hnone, Finset.card_empty] at hbalance
    change Bitmap.clearCount k.fs.blockBitmap 18 4096 < (missingBlocks k.fs ino _).card at hfew
    omega
  exact ⟨hshort, (hfill.short hshort).2⟩

/-- Two bytes written into the middle of a file of four. -/
theorem vfs_write_splices_two :
    let buffer : ℕ → Byte := fun i => BitVec.ofNat 8 (i + 9)
    let ops : List Op := [.create 0 ⟨[97#8], by decide⟩ false,
      .vfsWrite 1 0#32 4#32 fun i => BitVec.ofNat 8 (i + 1)]
    let k := run (pafsFormat ramdiskKernel) ops
    let r := pafsVfsWrite k 1 1#32 2#32 buffer
    Steps step WithinFile (pafsFormat ramdiskKernel) ops ∧ (k.fs.inode 1).type = pafsTypeFile ∧
      r.2 = 2 ∧ fileBytes r.1.fs 1 = [1#8, 9#8, 10#8, 4#8] := by
  intro buffer ops k r
  have hops : Steps step WithinFile (pafsFormat ramdiskKernel) ops :=
    ⟨trivial, fun _ => Nat.zero_le _, trivial⟩
  have ht : (k.fs.inode 1).type = pafsTypeFile := by decide +kernel
  have hsize : (k.fs.inode 1).size = 4#32 := by decide +kernel
  obtain ⟨hfull, -, hbytes, -⟩ := vfs_write_splices ramdiskKernel ops hops 1 1#32 2#32 buffer ht
    (by change 1 ≤ (k.fs.inode 1).size.toNat; rw [hsize]; decide)
  have hr : r.2 = 2 := hfull (by decide +kernel)
  have hbefore : fileBytes k.fs 1 = [1#8, 2#8, 3#8, 4#8] := by decide +kernel
  refine ⟨hops, ht, hr, ?_⟩
  change fileBytes r.1.fs 1 = (fileBytes k.fs 1).take 1 ++ (List.range r.2).map buffer ++
    (fileBytes k.fs 1).drop (1 + r.2) at hbytes
  rw [hbytes, hr, hbefore]
  rfl

/-! ## Reading -/

/-- The sectors that the loop of `pafs_vfs_read` reads, in order. -/
def vfsReadLoopLbas (file : Inode) : ℕ → ℕ → ℕ → ℕ → List ℕ
  | 0, _, _, _ => []
  | n + 1, i, off, left =>
    if 0 < left then
      (file.blocks.get i).toNat :: vfsReadLoopLbas file n (i + 1) 0 (left - min (512 - off) left)
    else []

/-- The sectors that `pafs_vfs_read` reads, in order. -/
def pafsVfsReadLbas (fs : State) (ino : ℕ) (offset size : Word) : List ℕ :=
  let file := fs.inode ino
  if file.type ≠ pafsTypeFile ∨ file.size = 0#32 then []
  else if file.size ≤ offset then []
  else
    let size := if file.size < offset + size then file.size - offset else size
    let blockIdx := offset.toNat / 512
    vfsReadLoopLbas file (14 - blockIdx) blockIdx (offset.toNat % 512) size.toNat

/-- The number of bytes of a file of `fileSize` bytes between an offset and `size` bytes further. -/
def bytesFrom (fileSize offset size : ℕ) : ℕ :=
  if fileSize ≤ offset then 0 else min size (fileSize - offset)

/-- A read returns the bytes of the file from the offset on, and reads its blocks only. -/
structure ReadsFile (k : Kernel) (ino : ℕ) (offset size : Word) : Prop where
  length : (pafsVfsRead k ino offset size).2.length =
    bytesFrom (k.fs.inode ino).size.toNat offset.toNat size.toNat
  bytes : (pafsVfsRead k ino offset size).2 = ((fileBytes k.fs ino).drop offset.toNat).take
    (bytesFrom (k.fs.inode ino).size.toNat offset.toNat size.toNat)
  blocks : ∀ lba ∈ pafsVfsReadLbas k.fs ino offset size,
    ∃ s, k.fs.block ino s ≠ 0#32 ∧ lba = (k.fs.block ino s).toNat

section Read

variable {k k' : Kernel} {fs fs' : State} {file : Inode} {ino n i off left : ℕ} {offset size : Word}

theorem vfsReadLoop_congr (h : ∀ lba ∈ vfsReadLoopLbas file n i off left, fs'.disk lba = fs.disk lba) :
    vfsReadLoop fs' file n i off left = vfsReadLoop fs file n i off left := by
  induction n generalizing i off left with
  | zero => rfl
  | succ n ih =>
    rw [vfsReadLoop, vfsReadLoop]
    rw [vfsReadLoopLbas] at h
    by_cases hleft : 0 < left
    · rw [if_pos hleft] at h
      rw [if_pos hleft, if_pos hleft]
      dsimp only
      rw [ih fun lba hlba => h lba (List.mem_cons_of_mem _ hlba), pafsDiskRead, h _ List.mem_cons_self,
        pafsDiskRead]
    · rw [if_neg hleft, if_neg hleft]

/-- **A read depends on the inode and on the sectors listed**, and on nothing else. -/
theorem pafsVfsRead_congr (hinode : k'.fs.inode ino = k.fs.inode ino)
    (h : ∀ lba ∈ pafsVfsReadLbas k.fs ino offset size, k'.fs.disk lba = k.fs.disk lba) :
    (pafsVfsRead k' ino offset size).2 = (pafsVfsRead k ino offset size).2 := by
  simp only [pafsVfsRead, pafsVfsReadLbas, Kernel.fs_touchDisk, Kernel.fs_lock, hinode] at h ⊢
  by_cases hfile : (k.fs.inode ino).type ≠ pafsTypeFile ∨ (k.fs.inode ino).size = 0#32
  · rw [if_pos hfile, if_pos hfile]
  · rw [if_neg hfile] at h
    rw [if_neg hfile, if_neg hfile]
    by_cases hend : (k.fs.inode ino).size ≤ offset
    · rw [if_pos hend, if_pos hend]
    · rw [if_neg hend] at h
      rw [if_neg hend, if_neg hend]
      exact vfsReadLoop_congr h

/-- The loop reads the block slots between its position and its end. -/
theorem mem_vfsReadLoopLbas (hoff : off < 512) {lba : ℕ}
    (h : lba ∈ vfsReadLoopLbas file n i off left) :
    ∃ s, lba = (file.blocks.get s).toNat ∧ s < i + n ∧ 512 * s < 512 * i + off + left ∧ 0 < left := by
  induction n generalizing i off left with
  | zero => exact absurd h List.not_mem_nil
  | succ n ih =>
    rw [vfsReadLoopLbas] at h
    split at h
    · next hleft =>
      rcases List.mem_cons.mp h with rfl | h
      · exact ⟨i, rfl, by omega, by omega, hleft⟩
      · obtain ⟨s, hs, hlt, hend, -⟩ := ih (by decide) h
        exact ⟨s, hs, by omega, by omega, hleft⟩
    · exact absurd h List.not_mem_nil

/-- A read from inside a file, the loop unrolled: the length that the clamp leaves. -/
theorem pafsVfsRead_of_lt (ht : (k.fs.inode ino).type = pafsTypeFile)
    (hlt : offset.toNat < (k.fs.inode ino).size.toNat) :
    let size' := if (k.fs.inode ino).size < offset + size then (k.fs.inode ino).size - offset else size
    (pafsVfsRead k ino offset size).2 =
        (List.range (min size'.toNat (7168 - offset.toNat))).map
          (fun p => byteAt k.fs ino (offset.toNat + p)) ∧
      pafsVfsReadLbas k.fs ino offset size = vfsReadLoopLbas (k.fs.inode ino) (14 - offset.toNat / 512)
        (offset.toNat / 512) (offset.toNat % 512) size'.toNat := by
  have hzero : (k.fs.inode ino).size ≠ 0#32 := by
    intro h0
    rw [h0] at hlt
    exact absurd hlt (Nat.not_lt_zero _)
  have hend : ¬(k.fs.inode ino).size ≤ offset := BitVec.not_le.mpr hlt
  have hopen : ¬((k.fs.inode ino).type ≠ pafsTypeFile ∨ (k.fs.inode ino).size = 0#32) := by
    simp [ht, hzero]
  simp only [pafsVfsRead, pafsVfsReadLbas, Kernel.fs_touchDisk, Kernel.fs_lock]
  rw [if_neg hopen, if_neg hend, if_neg hopen, if_neg hend]
  refine ⟨?_, rfl⟩
  dsimp only
  rw [vfsReadLoop_eq _ _ (Nat.mod_lt _ (by decide)),
    show 512 * (14 - offset.toNat / 512) - offset.toNat % 512 = 7168 - offset.toNat by omega,
    show 512 * (offset.toNat / 512) + offset.toNat % 512 = offset.toNat by omega]

/-- The size after the clamp, whose sum is taken in 32 bits. -/
theorem toNat_clamp (hlt : offset.toNat < (k.fs.inode ino).size.toNat) :
    (if (k.fs.inode ino).size < offset + size then (k.fs.inode ino).size - offset else size).toNat =
      if offset.toNat + size.toNat < 2 ^ 32 then
        min size.toNat ((k.fs.inode ino).size.toNat - offset.toNat)
      else size.toNat := by
  have hsub : ((k.fs.inode ino).size - offset).toNat = (k.fs.inode ino).size.toNat - offset.toNat :=
    BitVec.toNat_sub_of_le (BitVec.le_def.mpr (Nat.le_of_lt hlt))
  have hadd : (offset + size).toNat = (offset.toNat + size.toNat) % 2 ^ 32 := BitVec.toNat_add _ _
  have hsize := size.isLt
  by_cases hsum : offset.toNat + size.toNat < 2 ^ 32
  · rw [if_pos hsum]
    rw [Nat.mod_eq_of_lt hsum] at hadd
    split
    · next hover =>
      have hover' := BitVec.lt_def.mp hover
      omega
    · next hover =>
      have hover' := mt BitVec.lt_def.mpr hover
      omega
  · -- the wrapped sum is below the offset
    have hwrap : ¬(k.fs.inode ino).size < offset + size := by
      rw [BitVec.lt_def, hadd]
      omega
    rw [if_neg hsum, if_neg hwrap]

theorem pafsVfsRead_of_le (hle : (k.fs.inode ino).size.toNat ≤ offset.toNat) :
    (pafsVfsRead k ino offset size).2 = [] ∧ pafsVfsReadLbas k.fs ino offset size = [] := by
  have hend : (k.fs.inode ino).size ≤ offset := BitVec.le_def.mpr hle
  simp only [pafsVfsRead, pafsVfsReadLbas, Kernel.fs_touchDisk, Kernel.fs_lock, if_pos hend]
  split <;> exact ⟨rfl, rfl⟩

/-- A read whose sum wraps runs on to the end of the last block slot. -/
theorem length_pafsVfsRead_wrapped (ht : (k.fs.inode ino).type = pafsTypeFile)
    (hlt : offset.toNat < (k.fs.inode ino).size.toNat) (hcap : (k.fs.inode ino).size.toNat ≤ 7168)
    (hwrap : 2 ^ 32 ≤ offset.toNat + size.toNat) :
    (pafsVfsRead k ino offset size).2.length = 7168 - offset.toNat := by
  have hread := (@pafsVfsRead_of_lt k ino offset size ht hlt).1
  rw [hread, toNat_clamp hlt, if_neg (by omega), List.length_map, List.length_range]
  omega

end Read

/-- **Reading is exact unless the sum of offset and size wraps**: after calls that write files only at
offsets not above their size, `pafs_vfs_read` returns exactly the bytes of the file between the offset
and the end of the request or of the file, reading only blocks of the file, if and only if the offset is
not inside the file, or offset plus size is below 2^32, or the file fills all its blocks. -/
theorem vfs_read_exact_iff (k₀ : Kernel) (ops : List Op)
    (hops : Steps step WithinFile (pafsFormat k₀) ops) (ino : ℕ) (offset size : Word) :
    let k := run (pafsFormat k₀) ops
    (k.fs.inode ino).type = pafsTypeFile →
      (ReadsFile k ino offset size ↔ (k.fs.inode ino).size.toNat ≤ offset.toNat ∨
        offset.toNat + size.toNat < 2 ^ 32 ∨ (k.fs.inode ino).size.toNat = 7168) := by
  intro k ht
  have hw := run_whole k₀ hops
  have hcap : (k.fs.inode ino).size.toNat ≤ 7168 := hw.sizes ino ht
  have hholes : NoHoles k.fs ino := hw.holes ino ht
  by_cases hend : (k.fs.inode ino).size.toNat ≤ offset.toNat
  · obtain ⟨hread, hlbas⟩ := @pafsVfsRead_of_le k ino offset size hend
    refine iff_of_true ⟨?_, ?_, ?_⟩ (Or.inl hend)
    · rw [hread, bytesFrom, if_pos hend]
      rfl
    · rw [hread, bytesFrom, if_pos hend]
      rfl
    · rw [hlbas]
      exact fun _ hlba => absurd hlba List.not_mem_nil
  have hlt : offset.toNat < (k.fs.inode ino).size.toNat := Nat.lt_of_not_le hend
  obtain ⟨hread, hlbas⟩ := @pafsVfsRead_of_lt k ino offset size ht hlt
  have hclamp := @toNat_clamp k ino offset size hlt
  rw [hclamp] at hread hlbas
  constructor
  · intro hexact
    by_contra hnot
    push Not at hnot
    -- the read runs on to the end of the blocks, which is not the end of the file
    have hlength := length_pafsVfsRead_wrapped ht hlt hcap hnot.2.1
    rw [hexact.length, bytesFrom, if_neg hend] at hlength
    omega
  · intro hcond
    have hcond := hcond.resolve_left hend
    have hamount : min (if offset.toNat + size.toNat < 2 ^ 32 then
        min size.toNat ((k.fs.inode ino).size.toNat - offset.toNat) else size.toNat)
          (7168 - offset.toNat) = min size.toNat ((k.fs.inode ino).size.toNat - offset.toNat) := by
      split <;> omega
    rw [hamount] at hread
    refine ⟨?_, ?_, fun lba hlba => ?_⟩
    · rw [hread, bytesFrom, if_neg hend, List.length_map, List.length_range]
    · rw [hread, bytesFrom, if_neg hend, drop_take_fileBytes, Nat.min_assoc, Nat.min_self]
    · rw [hlbas] at hlba
      obtain ⟨s, rfl, hs, hbelow, -⟩ := mem_vfsReadLoopLbas (Nat.mod_lt _ (by decide)) hlba
      have hinside : 512 * s < (k.fs.inode ino).size.toNat := by
        split at hbelow <;> omega
      have hblock := hholes (512 * s) hinside
      rw [show 512 * s / 512 = s by omega] at hblock
      exact ⟨s, hblock, rfl⟩

theorem letterA_noNul : ∀ c ∈ [97#8], c ≠ 0#8 := by decide

/-- A file of two bytes on a fresh RAM disk. -/
def twoBytes : List Op :=
  [.create 0 ⟨[97#8], letterA_noNul⟩ false, .vfsWrite 1 0#32 2#32 fun i => BitVec.ofNat 8 (i + 1)]

theorem twoBytes_within : Steps step WithinFile (pafsFormat ramdiskKernel) twoBytes :=
  ⟨trivial, fun _ => Nat.zero_le _, trivial⟩

/-- Its second byte read. -/
theorem vfs_read_second :
    let k := run (pafsFormat ramdiskKernel) twoBytes
    Steps step WithinFile (pafsFormat ramdiskKernel) twoBytes ∧ (k.fs.inode 1).type = pafsTypeFile ∧
      ReadsFile k 1 1#32 1#32 := by
  intro k
  have ht : (k.fs.inode 1).type = pafsTypeFile := by decide +kernel
  have hiff := vfs_read_exact_iff ramdiskKernel twoBytes twoBytes_within 1 1#32 1#32 ht
  exact ⟨twoBytes_within, ht, hiff.mpr (.inr (.inl (by decide)))⟩

/-- The same with the size `-1`: 7167 bytes are returned. -/
theorem vfs_read_runs_on :
    let k := run (pafsFormat ramdiskKernel) twoBytes
    Steps step WithinFile (pafsFormat ramdiskKernel) twoBytes ∧ (k.fs.inode 1).type = pafsTypeFile ∧
      (pafsVfsRead k 1 1#32 0xFFFFFFFF#32).2.length = 7167 ∧ ¬ReadsFile k 1 1#32 0xFFFFFFFF#32 := by
  intro k
  have ht : (k.fs.inode 1).type = pafsTypeFile := by decide +kernel
  have hsize : (k.fs.inode 1).size.toNat = 2 := by decide +kernel
  have hlength : (pafsVfsRead k 1 1#32 0xFFFFFFFF#32).2.length = 7167 :=
    length_pafsVfsRead_wrapped ht (by rw [hsize]; decide) (by rw [hsize]; decide) (by decide)
  refine ⟨twoBytes_within, ht, hlength, fun hexact => ?_⟩
  have hshort := hexact.length
  rw [hlength, hsize] at hshort
  exact absurd hshort (by decide)

end PekerOS.Pafs
