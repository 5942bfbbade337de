import PekerOS.Fs.Pafs.Entries

/-!
# PAFS: file contents

Byte `p` of a file lies in block `p / 512` at offset `p % 512`, wherever the block table puts that
block, and the contents are the first `size` bytes. The read loop returns a stretch of them. The
write loop, given enough free blocks, splices the buffer in at the offset and keeps every other byte
of an allocated block.

## Main definitions

* `byteAt fs ino p`, `fileBytes fs ino`: one byte of a file, and its contents
* `missingBlocks fs ino n`: the block slots below `n` that are not allocated
* `Spliced ino pos n data fs fs'`: `n` bytes of `data` written at `pos`, the rest kept
* `FileSizes fs`: no file is longer than its 14 blocks

## Main results

* `vfsReadLoop_eq`, `pafsVfsRead_eq`: reading
* `vfsWriteLoop_spliced`, `pafsVfsWrite_spliced`: writing
* `FileSizes.create`, `FileSizes.delete`, `FileSizes.write`, `FileSizes.vfsWrite`: the size bound
-/

namespace PekerOS.Pafs

/-- Byte `p` of the file: a block slot that is zero is read as sector 0, as the code does. -/
def byteAt (fs : State) (ino p : ℕ) : Byte := (fs.disk (fs.block ino (p / 512)).toNat).get (p % 512)

/-- The contents of a file. -/
def fileBytes (fs : State) (ino : ℕ) : List Byte :=
  (List.range (fs.inode ino).size.toNat).map (byteAt fs ino)

/-- The first `n` block slots of a file that have no block yet. -/
def missingBlocks (fs : State) (ino n : ℕ) : Finset ℕ :=
  (Finset.range n).filter fun i => fs.block ino i = 0#32

/-- Every block that holds a byte of the file is allocated. -/
def NoHoles (fs : State) (ino : ℕ) : Prop :=
  ∀ p < (fs.inode ino).size.toNat, fs.block ino (p / 512) ≠ 0#32

/-- `n` bytes of `data` are written at `pos`; the bytes of the blocks allocated before stay. -/
structure Spliced (ino pos n : ℕ) (data : ℕ → Byte) (fs fs' : State) : Prop where
  size : (fs'.inode ino).size = (fs.inode ino).size
  written : ∀ p, pos ≤ p → p < pos + n →
    fs'.block ino (p / 512) ≠ 0#32 ∧ byteAt fs' ino p = data (p - pos)
  kept : ∀ p, p < pos ∨ pos + n ≤ p → fs.block ino (p / 512) ≠ 0#32 →
    fs'.block ino (p / 512) ≠ 0#32 ∧ byteAt fs' ino p = byteAt fs ino p

/-- As many of the first `n` slots were filled as free blocks were taken. -/
def Balanced (ino n : ℕ) (fs fs' : State) : Prop :=
  (missingBlocks fs' ino n).card + Bitmap.clearCount fs.blockBitmap 18 4096 =
    (missingBlocks fs ino n).card + Bitmap.clearCount fs'.blockBitmap 18 4096

/-- Of `len` bytes to be written at `pos` `w` were written: all of them, or as many as there were blocks
for. -/
structure Filled (ino pos len w : ℕ) (fs fs' : State) : Prop where
  le : w ≤ len
  short : w < len → fs'.block ino ((pos + w) / 512) = 0#32 ∧ findFreeBlock fs' = none
  balance : ∀ n, pos + len ≤ 512 * n → Balanced ino n fs fs'

/-- No file is longer than its blocks. -/
def FileSizes (fs : State) : Prop :=
  ∀ i, (fs.inode i).type = pafsTypeFile → (fs.inode i).size.toNat ≤ 14 * 512

/-! ## Reading -/

section Read

variable {fs : State} {ino : ℕ}

theorem range_map_append (a b : ℕ) (f : ℕ → Byte) :
    (List.range (a + b)).map f = (List.range a).map f ++ (List.range b).map fun k => f (a + k) := by
  rw [List.range_add, List.map_append, List.map_map]
  rfl

/-- The bytes of one block are bytes of the file. -/
theorem blockBytes_eq (fs : State) (ino i : ℕ) {off len : ℕ} (h : off + len ≤ 512) :
    blockBytes (fs.disk (fs.block ino i).toNat) off len =
      (List.range len).map fun k => byteAt fs ino (512 * i + off + k) := by
  apply List.map_congr_left
  intro k hk
  have hlt : k < len := List.mem_range.mp hk
  rw [byteAt, show (512 * i + off + k) / 512 = i by omega,
    show (512 * i + off + k) % 512 = off + k by omega]

/-- **The read loop** copies the bytes from its position on, up to the last block. -/
theorem vfsReadLoop_eq (fs : State) (ino : ℕ) {n i off left : ℕ} (hoff : off < 512) :
    vfsReadLoop fs (fs.inode ino) n i off left =
      (List.range (min left (512 * n - off))).map fun k => byteAt fs ino (512 * i + off + k) := by
  induction n generalizing i off left with
  | zero =>
    rw [vfsReadLoop, show min left (512 * 0 - off) = 0 by omega]
    rfl
  | succ n ih =>
    rw [vfsReadLoop]
    split
    · next hleft =>
      -- the part of block `i`, then the loop from block `i + 1` on
      have hfirst := blockBytes_eq fs ino i (show off + min (512 - off) left ≤ 512 by omega)
      dsimp only
      rw [ih (by decide), show min left (512 * (n + 1) - off) = min (512 - off) left +
        min (left - min (512 - off) left) (512 * n - 0) by omega, range_map_append]
      refine congrArg₂ (· ++ ·) hfirst ?_
      apply List.map_congr_left
      intro k hk
      have hlt := List.mem_range.mp hk
      rw [show 512 * (i + 1) + 0 + k = 512 * i + off + (min (512 - off) left + k) by omega]
    · next hleft =>
      rw [show min left (512 * (n + 1) - off) = 0 by omega]
      rfl

theorem drop_take_fileBytes (fs : State) (ino off n : ℕ) :
    ((fileBytes fs ino).drop off).take n =
      (List.range (min n ((fs.inode ino).size.toNat - off))).map fun k => byteAt fs ino (off + k) := by
  apply List.ext_getElem
  · simp [fileBytes]
  · intro k h₁ h₂
    simp [fileBytes]

/-- **Reading a file**: the stretch of its contents, for an offset and a size whose sum does not
overflow. -/
theorem pafsVfsRead_eq {k : Kernel} (hs : FileSizes k.fs) (ht : (k.fs.inode ino).type = pafsTypeFile)
    (offset size : Word) (hsum : offset.toNat + size.toNat < 2 ^ 32) :
    (pafsVfsRead k ino offset size).2 =
      ((fileBytes k.fs ino).drop offset.toNat).take size.toNat := by
  have hcap := hs ino ht
  have hadd : (offset + size).toNat = offset.toNat + size.toNat := by
    rw [BitVec.toNat_add]
    exact Nat.mod_eq_of_lt hsum
  rw [drop_take_fileBytes]
  simp only [pafsVfsRead, Kernel.fs_touchDisk, Kernel.fs_lock]
  by_cases hzero : (k.fs.inode ino).size = 0#32
  · rw [if_pos (Or.inr hzero), hzero, show min size.toNat ((0#32 : Word).toNat - offset.toNat) = 0
      by simp]
    rfl
  rw [if_neg (by simp [ht, hzero])]
  by_cases hend : (k.fs.inode ino).size ≤ offset
  · have hle : (k.fs.inode ino).size.toNat ≤ offset.toNat := hend
    rw [if_pos hend, show min size.toNat ((k.fs.inode ino).size.toNat - offset.toNat) = 0 by omega]
    rfl
  · have hlt : offset.toNat < (k.fs.inode ino).size.toNat := BitVec.not_le.mp hend
    rw [if_neg hend, vfsReadLoop_eq _ _ (Nat.mod_lt _ (by decide))]
    -- the size is cut to the end of the file, so the block limit is never met
    have hsize : (if (k.fs.inode ino).size < offset + size then (k.fs.inode ino).size - offset
        else size).toNat = min size.toNat ((k.fs.inode ino).size.toNat - offset.toNat) := by
      split
      · next hover =>
        have : (k.fs.inode ino).size.toNat < (offset + size).toNat := hover
        rw [BitVec.toNat_sub_of_le (BitVec.le_def.mpr (by omega))]
        omega
      · next hover =>
        have : ¬(k.fs.inode ino).size.toNat < (offset + size).toNat := fun h => hover h
        omega
    rw [hsize, show min (min size.toNat ((k.fs.inode ino).size.toNat - offset.toNat))
      (512 * (14 - offset.toNat / 512) - offset.toNat % 512) =
      min size.toNat ((k.fs.inode ino).size.toNat - offset.toNat) by omega]
    apply List.map_congr_left
    intro p hp
    rw [show 512 * (offset.toNat / 512) + offset.toNat % 512 = offset.toNat by omega]

end Read

/-! ## Writing -/

namespace Spliced

variable {ino pos n n' : ℕ} {data data' : ℕ → Byte} {fs fs₁ fs₂ : State}

theorem refl (fs : State) (ino pos : ℕ) (data : ℕ → Byte) : Spliced ino pos 0 data fs fs :=
  ⟨rfl, fun p h₁ h₂ => by omega, fun p _ hp => ⟨hp, rfl⟩⟩

/-- Two splices, the second empty or where the first ends. -/
theorem append {pos' : ℕ} (h : Spliced ino pos n data fs fs₁)
    (h' : Spliced ino pos' n' data' fs₁ fs₂) (hpos : n' = 0 ∨ pos' = pos + n)
    (hdata : ∀ k, data' k = data (n + k)) : Spliced ino pos (n + n') data fs fs₂ where
  size := h'.size.trans h.size
  written p hlo hhi := by
    by_cases hp : p < pos + n
    · obtain ⟨hne, hbyte⟩ := h.written p hlo hp
      obtain ⟨hne', hbyte'⟩ := h'.kept p (by omega) hne
      exact ⟨hne', hbyte'.trans hbyte⟩
    · obtain ⟨hne, hbyte⟩ := h'.written p (by omega) (by omega)
      refine ⟨hne, hbyte.trans ?_⟩
      rw [hdata, show n + (p - pos') = p - pos by omega]
  kept p hp hne := by
    obtain ⟨hne₁, hbyte₁⟩ := h.kept p (by omega) hne
    obtain ⟨hne₂, hbyte₂⟩ := h'.kept p (by omega) hne₁
    exact ⟨hne₂, hbyte₂.trans hbyte₁⟩

end Spliced

theorem Balanced.trans {ino n : ℕ} {fs fs₁ fs₂ : State} (h : Balanced ino n fs fs₁)
    (h' : Balanced ino n fs₁ fs₂) : Balanced ino n fs fs₂ := by
  unfold Balanced at *
  omega

namespace Filled

variable {ino pos len w n : ℕ} {fs fs' : State}

theorem refl (fs : State) (ino pos : ℕ) : Filled ino pos 0 0 fs fs :=
  ⟨le_rfl, fun h => absurd h (by omega), fun _ _ => rfl⟩

/-- Nothing is written when the first block is missing and none is free. -/
theorem stopped (hzero : fs.block ino (pos / 512) = 0#32) (hnone : findFreeBlock fs = none) :
    Filled ino pos len 0 fs fs :=
  ⟨Nat.zero_le len, fun _ => ⟨hzero, hnone⟩, fun _ _ => rfl⟩

/-- With a free block for every missing one nothing is left out, and there stay enough. -/
theorem full (h : Filled ino pos len w fs fs') (hn : pos + len ≤ 512 * n)
    (henough : (missingBlocks fs ino n).card ≤ Bitmap.clearCount fs.blockBitmap 18 4096) :
    w = len ∧ (missingBlocks fs' ino n).card ≤ Bitmap.clearCount fs'.blockBitmap 18 4096 := by
  have hle := h.le
  have hbalance : _ + _ = _ + _ := h.balance n hn
  refine ⟨?_, by omega⟩
  by_contra hne
  obtain ⟨hzero, hnone⟩ := h.short (by omega)
  have hmem : (pos + w) / 512 ∈ missingBlocks fs' ino n := by
    simp only [missingBlocks, Finset.mem_filter, Finset.mem_range]
    exact ⟨by omega, hzero⟩
  have hcard := Finset.card_pos.mpr ⟨_, hmem⟩
  rw [findFreeBlock_none] at hnone
  omega

end Filled

section Write

variable {fs : State} {ino : ℕ}

/-- What taking a block for slot `i` changes: that slot, and never a data sector. -/
structure Ensured (ino i : ℕ) (fs fs' : State) : Prop where
  size : (fs'.inode ino).size = (fs.inode ino).size
  self : fs'.block ino i ≠ 0#32
  other : ∀ j, j ≠ i → fs'.block ino j = fs.block ino j
  old : fs.block ino i ≠ 0#32 → fs'.block ino i = fs.block ino i
  disk : ∀ lba, 18 ≤ lba → fs'.disk lba = fs.disk lba

theorem ensured_of_ensureBlock {i : ℕ} {fs' : State} (h : Inv fs)
    (ht : (fs.inode ino).type = pafsTypeFile) (hi : i < 14) (he : ensureBlock fs ino i = some fs') :
    Ensured ino i fs fs' := by
  have hlt : ino < 128 := State.lt_of_type_ne (by rw [ht]; decide)
  obtain ⟨-, -, hne⟩ := h.ensureBlock ht hi he
  unfold ensureBlock at he
  split at he
  · next hzero =>
    obtain ⟨⟨fs₁, b⟩, halloc, rfl⟩ := Option.map_eq_some_iff.mp he
    obtain ⟨b', -, heq⟩ := Option.map_eq_some_iff.mp halloc
    obtain ⟨rfl, rfl⟩ := Prod.mk.inj heq
    refine ⟨?_, hne, fun j hj => ?_, fun h0 => absurd hzero h0, fun lba hlba => disk_takeBlock fs b' hlba⟩
    · rw [State.inode_setBlock_self _ hlt]
      rfl
    · rw [State.block_setBlock_ne _ hlt (fun heq => hj (Prod.mk.inj heq).2)]
      rfl
  · obtain rfl := Option.some.inj he
    exact ⟨rfl, hne, fun _ _ => rfl, fun _ => rfl, fun _ _ => rfl⟩

/-- The slot gets no block exactly when it has none and none is free. -/
theorem ensureBlock_eq_none {i : ℕ} :
    ensureBlock fs ino i = none ↔ fs.block ino i = 0#32 ∧ findFreeBlock fs = none := by
  unfold ensureBlock
  split
  · next hzero => simp [allocBlock, hzero]
  · next hne => simp [hne]

/-- Every block taken fills one empty slot. -/
theorem balanced_ensureBlock {i n : ℕ} {fs' : State} (h : Inv fs)
    (ht : (fs.inode ino).type = pafsTypeFile) (hi : i < 14) (hin : i < n)
    (he : ensureBlock fs ino i = some fs') : Balanced ino n fs fs' := by
  have hens := ensured_of_ensureBlock h ht hi he
  unfold ensureBlock at he
  split at he
  · next hzero =>
    obtain ⟨⟨fs₁, b⟩, halloc, heq⟩ := Option.map_eq_some_iff.mp he
    obtain ⟨b', hb, heq'⟩ := Option.map_eq_some_iff.mp halloc
    obtain ⟨rfl, rfl⟩ := Prod.mk.inj heq'
    -- one block less is missing, and one less is clear
    have hmem : i ∈ missingBlocks fs ino n := by simp [missingBlocks, hin, hzero]
    have herase : missingBlocks fs' ino n = (missingBlocks fs ino n).erase i := by
      ext j
      simp only [missingBlocks, Finset.mem_filter, Finset.mem_erase, Finset.mem_range]
      by_cases hj : j = i
      · subst hj
        simp [hens.self]
      · simp [hj, hens.other j hj]
    have hrange := (mem_clearBits_of_findFreeBlock hb).1
    have hcount := Bitmap.clearCount_set (by omega) (findFreeBlock_some.mp hb).1
    have hcard := Finset.card_erase_add_one hmem
    have hmap : fs'.blockBitmap = Bitmap.set fs.blockBitmap b' := by
      rw [← heq]
      rfl
    rw [Balanced, herase, hmap]
    omega
  · obtain rfl := Option.some.inj he
    rfl

/-- Taking a block moves no byte of an allocated one. -/
theorem Ensured.byteAt {i p : ℕ} {fs' : State} (h : Inv fs) (he : Ensured ino i fs fs')
    (hp : fs.block ino (p / 512) ≠ 0#32) :
    fs'.block ino (p / 512) = fs.block ino (p / 512) ∧ byteAt fs' ino p = byteAt fs ino p := by
  have hblock : fs'.block ino (p / 512) = fs.block ino (p / 512) := by
    by_cases hi : p / 512 = i
    · rw [hi] at hp ⊢
      exact he.old hp
    · exact he.other _ hi
  refine ⟨hblock, ?_⟩
  rw [Pafs.byteAt, hblock, he.disk _ (h.data hp), Pafs.byteAt]

/-- Writing part of one block of a file. -/
theorem spliced_block {i off n : ℕ} {data : ℕ → Byte} {buf : Sector} (h : Inv fs)
    (hne : fs.block ino i ≠ 0#32) (hoff : off + n ≤ 512)
    (hin : ∀ j, off ≤ j → j < off + n → buf.get j = data (j - off))
    (hout : ∀ j < 512, j < off ∨ off + n ≤ j → buf.get j = (fs.disk (fs.block ino i).toNat).get j) :
    Spliced ino (512 * i + off) n data fs (pafsDiskWrite fs (fs.block ino i).toNat buf) where
  size := rfl
  written p hlo hhi := by
    have hdiv : p / 512 = i := by omega
    refine ⟨by rw [hdiv]; exact hne, ?_⟩
    rw [byteAt, hdiv, block_pafsDiskWrite, disk_pafsDiskWrite_self, hin _ (by omega) (by omega),
      show p % 512 - off = p - (512 * i + off) by omega]
  kept p hp hpne := by
    refine ⟨hpne, ?_⟩
    rw [byteAt, block_pafsDiskWrite, byteAt]
    by_cases hdiv : p / 512 = i
    · rw [hdiv, disk_pafsDiskWrite_self]
      exact hout _ (Nat.mod_lt _ (by decide)) (by omega)
    · rw [disk_pafsDiskWrite_ne]
      exact fun heq => hdiv (h.inj hpne heq).2

/-- A splice is not disturbed by taking a block before it. -/
theorem Ensured.spliced {i pos n : ℕ} {data : ℕ → Byte} {fs' fs'' : State} (h : Inv fs)
    (he : Ensured ino i fs fs') (hs : Spliced ino pos n data fs' fs'') :
    Spliced ino pos n data fs fs'' where
  size := hs.size.trans he.size
  written := hs.written
  kept p hp hne := by
    obtain ⟨hblock, hbyte⟩ := he.byteAt h hne
    obtain ⟨hne', hbyte'⟩ := hs.kept p hp (hblock ▸ hne)
    exact ⟨hne', hbyte'.trans hbyte⟩

/-- **The write loop** splices as much as it reports: what fits into the 14 blocks, or less when no
block is free. -/
theorem vfsWriteLoop_spliced {buffer : ℕ → Byte} {size r i off done : ℕ} (h : Inv fs)
    (ht : (fs.inode ino).type = pafsTypeFile) (hoff : off < 512) (hr : r = 0 ∨ i + r = 14) :
    ∃ fs' w, vfsWriteLoop ino buffer size r fs i off done = (fs', done + w) ∧
      Spliced ino (512 * i + off) w (fun k => buffer (done + k)) fs fs' ∧
      Filled ino (512 * i + off) (min (size - done) (512 * r - off)) w fs fs' := by
  induction r generalizing fs i off done with
  | zero =>
    rw [show min (size - done) (512 * 0 - off) = 0 by omega]
    exact ⟨fs, 0, rfl, Spliced.refl fs ino _ _, Filled.refl fs ino _⟩
  | succ r ih =>
    rw [vfsWriteLoop]
    split
    · next hdone =>
      cases he : ensureBlock fs ino i with
      | none =>
        refine ⟨fs, 0, rfl, Spliced.refl fs ino _ _, Filled.stopped ?_ (ensureBlock_eq_none.mp he).2⟩
        rw [show (512 * i + off) / 512 = i by omega]
        exact (ensureBlock_eq_none.mp he).1
      | some fs₁ =>
        obtain ⟨h₁, ho₁, hne⟩ := h.ensureBlock ht (by omega) he
        have hens := ensured_of_ensureBlock h ht (by omega) he
        have ht₁ := ho₁.type.trans ht
        dsimp only
        -- one block, then the loop from the start of the next one
        generalize hbuf : (if 0 < off ∨ size - done < 512 then
          pafsDiskRead fs₁ (fs₁.block ino i).toNat else default : Sector) = old
        have hfirst := @spliced_block _ _ i off (min (512 - off) (size - done))
          (fun k => buffer (done + k)) (old.patch off (min (512 - off) (size - done))
            fun k => buffer (done + k)) h₁ hne (by omega)
          (fun j hlo hhi => by rw [Table.get_patch _ _ (by omega), if_pos ⟨hlo, hhi⟩])
          (fun j hj hout => by
            rw [Table.get_patch_of_not_mem _ _ (by omega), ← hbuf, if_pos (by omega)]
            rfl)
        obtain ⟨h₂, ho₂⟩ := h₁.writeBlock ht₁ i
          (old.patch off (min (512 - off) (size - done)) fun k => buffer (done + k))
        obtain ⟨fs₂, w, hloop, hrest, hfill⟩ := @ih _ (i + 1) 0 (done + min (512 - off) (size - done)) h₂
          (ho₂.type.trans ht₁) (by decide) (by omega)
        have hle := hfill.le
        refine ⟨fs₂, min (512 - off) (size - done) + w, by rw [hloop, Nat.add_assoc], hens.spliced h ?_, ?_⟩
        · -- a loop that goes on has filled the block
          exact hfirst.append hrest (by omega) fun k => by rw [Nat.add_assoc]
        · refine ⟨by omega, fun hshort => ?_, fun n hn => ?_⟩
          · rw [show 512 * i + off + (min (512 - off) (size - done) + w) = 512 * (i + 1) + 0 + w by omega]
            exact hfill.short (by omega)
          · have hbalance := balanced_ensureBlock h ht (show i < 14 by omega) (show i < n by omega) he
            exact hbalance.trans (hfill.balance n (by omega))
    · next hdone =>
      rw [show min (size - done) (512 * (r + 1) - off) = 0 by omega]
      exact ⟨fs, 0, rfl, Spliced.refl fs ino _ _, Filled.refl fs ino _⟩

theorem fileBytes_eq_splice {fs' : State} {pos n : ℕ} {data : ℕ → Byte}
    (hpos : pos ≤ (fs.inode ino).size.toNat)
    (hsize : (fs'.inode ino).size.toNat = max (fs.inode ino).size.toNat (pos + n))
    (hnew : ∀ p, pos ≤ p → p < pos + n → byteAt fs' ino p = data (p - pos))
    (hold : ∀ p < (fs.inode ino).size.toNat, p < pos ∨ pos + n ≤ p →
      byteAt fs' ino p = byteAt fs ino p) :
    fileBytes fs' ino = (fileBytes fs ino).take pos ++ (List.range n).map data ++
      (fileBytes fs ino).drop (pos + n) := by
  apply List.ext_getElem
  · simp only [fileBytes, List.length_append, List.length_take, List.length_drop, List.length_map,
      List.length_range, hsize]
    omega
  · intro p h₁ h₂
    simp only [fileBytes, List.length_map, List.length_range, hsize] at h₁
    simp only [fileBytes, List.getElem_map, List.getElem_range, List.getElem_append,
      List.length_append, List.length_take, List.length_map, List.length_range, List.getElem_take,
      List.getElem_drop]
    split
    · split
      · exact hold p (by omega) (by omega)
      · rw [hnew p (by omega) (by omega)]
        congr 1
        omega
    · rw [hold p (by omega) (by omega)]
      congr 1
      omega

/-- The end of `pafs_vfs_write`: the size follows the end of the write and the inode is saved. -/
def endWrite (fs : State) (ino : ℕ) (newEnd : Word) : State :=
  pafsSaveInode (if (fs.inode ino).size < newEnd then fs.setSize ino newEnd else fs) ino

theorem findFreeBlock_congr {fs fs' : State} (h : fs'.blockBitmap = fs.blockBitmap) :
    findFreeBlock fs' = findFreeBlock fs := by
  simp only [findFreeBlock, pafsBitmapTest, h]

theorem missingBlocks_congr {fs fs' : State} {ino : ℕ} (h : ∀ s, fs'.block ino s = fs.block ino s)
    (n : ℕ) : missingBlocks fs' ino n = missingBlocks fs ino n := by
  simp only [missingBlocks, h]

section EndWrite

variable (newEnd : Word)

theorem size_endWrite (hlt : ino < 128) : ((endWrite fs ino newEnd).inode ino).size.toNat =
    max (fs.inode ino).size.toNat newEnd.toNat := by
  rw [endWrite, pafsSaveInode, inode_pafsDiskWrite]
  split
  · next hgrow =>
    rw [fs.inode_setSize_self hlt]
    exact (max_eq_right (Nat.le_of_lt (BitVec.lt_def.mp hgrow))).symm
  · next hgrow => exact (max_eq_left (BitVec.not_lt.mp hgrow)).symm

theorem block_endWrite (hlt : ino < 128) (s : ℕ) :
    (endWrite fs ino newEnd).block ino s = fs.block ino s := by
  rw [endWrite, pafsSaveInode, block_pafsDiskWrite]
  split
  · exact fs.block_setSize hlt newEnd
  · rfl

theorem blockBitmap_endWrite : (endWrite fs ino newEnd).blockBitmap = fs.blockBitmap := by
  unfold endWrite
  split <;> rfl

theorem byteAt_endWrite (h : Inv fs) (hlt : ino < 128) {p : ℕ}
    (hne : fs.block ino (p / 512) ≠ 0#32) :
    byteAt (endWrite fs ino newEnd) ino p = byteAt fs ino p := by
  have hdata := h.data hne
  rw [byteAt, block_endWrite newEnd hlt, endWrite, pafsSaveInode,
    disk_pafsDiskWrite_ne _ (by unfold lbaInodesStart; omega), byteAt]
  split <;> rfl

end EndWrite

theorem pafsVfsWrite_eq {k : Kernel} {offset size : Word} {buffer : ℕ → Byte}
    (ht : (k.fs.inode ino).type = pafsTypeFile) :
    let r := vfsWriteLoop ino buffer size.toNat (14 - offset.toNat / 512) k.fs
      (offset.toNat / 512) (offset.toNat % 512) 0
    (pafsVfsWrite k ino offset size buffer).1.fs =
        endWrite r.1 ino (offset + BitVec.ofNat 32 r.2) ∧
      (pafsVfsWrite k ino offset size buffer).2 = r.2 :=
  ⟨fs_pafsVfsWrite ht, by simp [pafsVfsWrite, ht]⟩

/-- **Writing to a file** without holes, at an offset inside it: what the call reports is spliced in,
and that is what fits, unless no block is free. -/
theorem pafsVfsWrite_filled {k : Kernel} {offset size : Word} {buffer : ℕ → Byte} (h : Inv k.fs)
    (hs : FileSizes k.fs) (ht : (k.fs.inode ino).type = pafsTypeFile) (hholes : NoHoles k.fs ino)
    (hoff : offset.toNat ≤ (k.fs.inode ino).size.toNat) :
    let r := pafsVfsWrite k ino offset size buffer
    fileBytes r.1.fs ino = (fileBytes k.fs ino).take offset.toNat ++ (List.range r.2).map buffer ++
        (fileBytes k.fs ino).drop (offset.toNat + r.2) ∧
      NoHoles r.1.fs ino ∧
      Filled ino offset.toNat (min size.toNat (7168 - offset.toNat)) r.2 k.fs r.1.fs := by
  have hcap := hs ino ht
  have hlt : ino < 128 := State.lt_of_type_ne (by rw [ht]; decide)
  obtain ⟨fs₁, w, hloop, hsp, hfill⟩ := @vfsWriteLoop_spliced _ _ buffer size.toNat
    (14 - offset.toNat / 512) (offset.toNat / 512) (offset.toNat % 512) 0 h ht
    (Nat.mod_lt _ (by decide)) (by omega)
  have hinv := (@Inv.vfsWriteLoop _ _ (offset.toNat / 512) buffer size.toNat
    (14 - offset.toNat / 512) (offset.toNat % 512) 0 h ht (by omega)).1
  obtain ⟨hfs, hret⟩ := @pafsVfsWrite_eq _ k offset size buffer ht
  rw [hloop] at hinv hfs hret
  -- position and length, in bytes
  rw [show 512 * (offset.toNat / 512) + offset.toNat % 512 = offset.toNat by omega] at hsp hfill
  rw [show min (size.toNat - 0) (512 * (14 - offset.toNat / 512) - offset.toNat % 512) =
    min size.toNat (7168 - offset.toNat) by omega] at hfill
  rw [Nat.zero_add] at hfs hret
  have hfit := hfill.le
  have hend : (offset + BitVec.ofNat 32 w).toNat = offset.toNat + w := by
    rw [BitVec.toNat_add, BitVec.toNat_ofNat]
    omega
  have hsize := @size_endWrite fs₁ ino (offset + BitVec.ofNat 32 w) hlt
  rw [hend, hsp.size] at hsize
  rw [← hfs] at hsize
  -- the block of every byte below the new size is there
  have hblock : ∀ p < max (k.fs.inode ino).size.toNat (offset.toNat + w),
      fs₁.block ino (p / 512) ≠ 0#32 := by
    intro p hp
    by_cases hin : offset.toNat ≤ p ∧ p < offset.toNat + w
    · exact (hsp.written p hin.1 hin.2).1
    · exact (hsp.kept p (by omega) (hholes p (by omega))).1
  -- `pafs_save_metadata` changes no data block
  have hbyte : ∀ p < max (k.fs.inode ino).size.toNat (offset.toNat + w),
      byteAt (pafsVfsWrite k ino offset size buffer).1.fs ino p = byteAt fs₁ ino p := by
    intro p hp
    rw [hfs]
    exact byteAt_endWrite _ hinv hlt (hblock p hp)
  dsimp only
  rw [hret]
  refine ⟨fileBytes_eq_splice hoff hsize ?_ ?_, ?_, hfill.le, fun hshort => ?_, fun n hn => ?_⟩
  · intro p hlo hhi
    rw [hbyte p (by omega), (hsp.written p hlo hhi).2, Nat.zero_add]
  · intro p hp hout
    rw [hbyte p (by omega), (hsp.kept p hout (hholes p hp)).2]
  · intro p hp
    rw [hsize] at hp
    rw [hfs, block_endWrite _ hlt]
    exact hblock p hp
  · rw [hfs, block_endWrite _ hlt]
    exact ⟨(hfill.short hshort).1,
      (findFreeBlock_congr (blockBitmap_endWrite _)).trans (hfill.short hshort).2⟩
  · have hbalance := hfill.balance n hn
    rwa [hfs, Balanced, missingBlocks_congr (block_endWrite _ hlt), blockBitmap_endWrite]

/-- The same with blocks enough. -/
theorem pafsVfsWrite_spliced {k : Kernel} {offset size : Word} {buffer : ℕ → Byte} {n : ℕ}
    (h : Inv k.fs) (hs : FileSizes k.fs) (ht : (k.fs.inode ino).type = pafsTypeFile)
    (hholes : NoHoles k.fs ino) (hoff : offset.toNat ≤ (k.fs.inode ino).size.toNat)
    (hn : min (offset.toNat + size.toNat) 7168 ≤ 512 * n)
    (henough : (missingBlocks k.fs ino n).card ≤ Bitmap.clearCount k.fs.blockBitmap 18 4096) :
    let r := pafsVfsWrite k ino offset size buffer
    r.2 = min size.toNat (7168 - offset.toNat) ∧
      fileBytes r.1.fs ino = (fileBytes k.fs ino).take offset.toNat ++
        (List.range (min size.toNat (7168 - offset.toNat))).map buffer ++
        (fileBytes k.fs ino).drop (offset.toNat + min size.toNat (7168 - offset.toNat)) ∧
      NoHoles r.1.fs ino ∧
      (missingBlocks r.1.fs ino n).card ≤ Bitmap.clearCount r.1.fs.blockBitmap 18 4096 := by
  have hcap := hs ino ht
  obtain ⟨hbytes, hholes', hfill⟩ := @pafsVfsWrite_filled _ k offset size buffer h hs ht hholes hoff
  obtain ⟨hfull, henough'⟩ := hfill.full (n := n) (by omega) henough
  rw [hfull] at hbytes
  exact ⟨hfull, hbytes, hholes', henough'⟩

/-- **Writing to a file**: the bytes that the call reports are in the file, in blocks of its own. -/
theorem pafsVfsWrite_written {k : Kernel} {offset size : Word} {buffer : ℕ → Byte} (h : Inv k.fs)
    (ht : (k.fs.inode ino).type = pafsTypeFile) :
    let r := pafsVfsWrite k ino offset size buffer
    ∀ j < r.2, r.1.fs.block ino ((offset.toNat + j) / 512) ≠ 0#32 ∧
      byteAt r.1.fs ino (offset.toNat + j) = buffer j := by
  have hlt : ino < 128 := State.lt_of_type_ne (by rw [ht]; decide)
  obtain ⟨fs₁, w, hloop, hsp, -⟩ := @vfsWriteLoop_spliced _ _ buffer size.toNat
    (14 - offset.toNat / 512) (offset.toNat / 512) (offset.toNat % 512) 0 h ht
    (Nat.mod_lt _ (by decide)) (by omega)
  have hinv := (@Inv.vfsWriteLoop _ _ (offset.toNat / 512) buffer size.toNat
    (14 - offset.toNat / 512) (offset.toNat % 512) 0 h ht (by omega)).1
  obtain ⟨hfs, hret⟩ := @pafsVfsWrite_eq _ k offset size buffer ht
  rw [hloop] at hinv hfs hret
  rw [Nat.zero_add] at hfs hret
  intro r j hj
  rw [hret] at hj
  obtain ⟨hne, hbyte⟩ := hsp.written (offset.toNat + j) (by omega) (by omega)
  rw [show r.1.fs = _ from hfs, block_endWrite _ hlt, byteAt_endWrite _ hinv hlt hne]
  refine ⟨hne, hbyte.trans (congrArg buffer ?_)⟩
  omega

/-- The size follows the end of the write. -/
theorem pafsVfsWrite_size {k : Kernel} {offset size : Word} {buffer : ℕ → Byte}
    (ht : (k.fs.inode ino).type = pafsTypeFile) :
    let r := pafsVfsWrite k ino offset size buffer
    (offset + BitVec.ofNat 32 r.2).toNat ≤ (r.1.fs.inode ino).size.toNat := by
  have hlt : ino < 128 := State.lt_of_type_ne (by rw [ht]; decide)
  obtain ⟨hfs, hret⟩ := @pafsVfsWrite_eq _ k offset size buffer ht
  dsimp only
  rw [hfs, size_endWrite _ hlt, hret]
  exact le_max_right _ _

end Write

/-! ## The size bound -/

section Bounds

variable {ino : ℕ} {data : ℕ → Byte}

theorem writeLoop_le {len r i done : ℕ} (fs : State) :
    (writeLoop ino data len r fs i done).2 ≤ done + 512 * r := by
  induction r generalizing fs i done with
  | zero => exact Nat.le_add_right done _
  | succ r ih =>
    rw [writeLoop]
    split
    · cases ensureBlock fs ino i with
      | none => exact Nat.le_add_right done _
      | some fs₁ =>
        refine le_trans (ih _) ?_
        omega
    · exact Nat.le_add_right done _

theorem vfsWriteLoop_le {size r i off done : ℕ} (fs : State) (hoff : off < 512) :
    (vfsWriteLoop ino data size r fs i off done).2 ≤ done + (512 * r - off) := by
  induction r generalizing fs i off done with
  | zero => exact Nat.le_add_right done _
  | succ r ih =>
    rw [vfsWriteLoop]
    split
    · cases ensureBlock fs ino i with
      | none => exact Nat.le_add_right done _
      | some fs₁ =>
        refine le_trans (ih _ (by decide)) ?_
        omega
    · exact Nat.le_add_right done _

theorem size_ensureBlock {fs fs' : State} {i : ℕ} (hlt : ino < 128)
    (he : ensureBlock fs ino i = some fs') : (fs'.inode ino).size = (fs.inode ino).size := by
  unfold ensureBlock at he
  split at he
  · obtain ⟨⟨fs₁, b⟩, halloc, rfl⟩ := Option.map_eq_some_iff.mp he
    obtain ⟨b', -, heq⟩ := Option.map_eq_some_iff.mp halloc
    obtain ⟨rfl, rfl⟩ := Prod.mk.inj heq
    rw [State.inode_setBlock_self _ hlt]
    rfl
  · obtain rfl := Option.some.inj he
    rfl

/-- The loop leaves the size to the end of the call. -/
theorem size_vfsWriteLoop {size r i off done : ℕ} (fs : State) (hlt : ino < 128) :
    ((vfsWriteLoop ino data size r fs i off done).1.inode ino).size = (fs.inode ino).size := by
  induction r generalizing fs i off done with
  | zero => rfl
  | succ r ih =>
    rw [vfsWriteLoop]
    split
    · cases he : ensureBlock fs ino i with
      | none => rfl
      | some fs₁ =>
        have hsize := size_ensureBlock hlt he
        exact (ih _).trans hsize
    · rfl

/-- Whatever the size, a read from inside the block range stays inside it. -/
theorem pafsVfsRead_le (k : Kernel) {offset : Word} (hoff : offset.toNat ≤ 7168) (size : Word) :
    offset.toNat + (pafsVfsRead k ino offset size).2.length ≤ 7168 := by
  unfold pafsVfsRead
  dsimp only
  split
  · exact hoff
  · split
    · exact hoff
    · rw [vfsReadLoop_eq _ _ (Nat.mod_lt _ (by decide)), List.length_map, List.length_range]
      omega

/-- Whatever the size, a write from inside the block range stays inside it. -/
theorem pafsVfsWrite_le (k : Kernel) {offset : Word} (hoff : offset.toNat ≤ 7168) (size : Word) :
    offset.toNat + (pafsVfsWrite k ino offset size data).2 ≤ 7168 := by
  by_cases ht : (k.fs.inode ino).type = pafsTypeFile
  · have hle := @vfsWriteLoop_le ino data size.toNat (14 - offset.toNat / 512)
      (offset.toNat / 512) (offset.toNat % 512) 0 k.fs (Nat.mod_lt _ (by decide))
    rw [(pafsVfsWrite_eq ht).2]
    omega
  · simpa [pafsVfsWrite, ht] using hoff

end Bounds

namespace FileSizes

variable {fs fs' : State} {k : Kernel}

/-- A write to one file that ends with a size in bounds. -/
theorem onlyFile {ino : ℕ} (hs : FileSizes fs) (ho : OnlyFile ino fs fs')
    (hsize : (fs.inode ino).type = pafsTypeFile → (fs'.inode ino).size.toNat ≤ 14 * 512) :
    FileSizes fs' := by
  intro i hi
  by_cases hino : i = ino
  · subst hino
    exact hsize (ho.type.symm.trans hi)
  · rw [ho.inode i hino] at hi ⊢
    exact hs i hi

theorem format (fs : State) : FileSizes (formatState fs) := by
  intro i hi
  by_cases h0 : i = 0
  · subst h0
    rw [(Inv.format fs).rootDir] at hi
    exact absurd hi (by decide)
  · rw [inode_format_ne fs h0]
    exact Nat.zero_le _

theorem created {parentIno new n m : ℕ} {name : CString} {isDir : Bool} {mid : State}
    (hs : FileSizes fs) (hcr : Created fs parentIno name isDir new n m mid fs') :
    FileSizes fs' := by
  intro i hi
  have hparent := hcr.ne_parent hi
  by_cases hnew : i = new
  · subst hnew
    rw [hcr.inode_new hparent]
    exact Nat.zero_le _
  · rw [hcr.inode_ne hnew hparent] at hi ⊢
    exact hs i hi

theorem deleted {parentIno ino t n m : ℕ} {name : CString} (hs : FileSizes fs)
    (hdel : Deleted fs parentIno name ino t n m fs') : FileSizes fs' := by
  intro i hi
  obtain ⟨hparent, hino⟩ := hdel.ne_of_file hi
  rw [hdel.inode_other hparent hino] at hi ⊢
  exact hs i hi

theorem writeFile (h : Inv k.fs) (hs : FileSizes k.fs) (ino : ℕ) (data : ℕ → Byte) (len : ℤ) :
    FileSizes (pafsWriteFile k ino data len).1.fs := by
  refine hs.onlyFile (h.writeFile ino data len).2 fun ht => ?_
  have hlt : ino < 128 := State.lt_of_type_ne (by rw [ht]; decide)
  have hle := @writeLoop_le ino data len.toNat 14 0 0 k.fs
  rw [fs_pafsWriteFile ht, (State.SameData.saveInode hlt).inode, State.inode_setSize_self _ hlt,
    BitVec.toNat_ofNat]
  exact le_trans (Nat.mod_le _ _) (by omega)

theorem vfsWrite (h : Inv k.fs) (hs : FileSizes k.fs) (ino : ℕ) {offset : Word}
    (hoff : offset.toNat ≤ 7168) (size : Word) (buffer : ℕ → Byte) :
    FileSizes (pafsVfsWrite k ino offset size buffer).1.fs := by
  refine hs.onlyFile (h.vfsWrite ino offset size buffer).2 fun ht => ?_
  have hlt : ino < 128 := State.lt_of_type_ne (by rw [ht]; decide)
  have hle := @pafsVfsWrite_le ino buffer k offset hoff size
  rw [(pafsVfsWrite_eq ht).2] at hle
  rw [(pafsVfsWrite_eq ht).1, size_endWrite _ hlt, size_vfsWriteLoop k.fs hlt]
  generalize (vfsWriteLoop ino buffer size.toNat (14 - offset.toNat / 512) k.fs
    (offset.toNat / 512) (offset.toNat % 512) 0).2 = w at *
  have hend : (offset + BitVec.ofNat 32 w).toNat = offset.toNat + w := by
    rw [BitVec.toNat_add, BitVec.toNat_ofNat]
    omega
  have := hs ino ht
  rw [hend]
  omega

theorem write (h : Inv k.fs) (hs : FileSizes k.fs) (name : CString) (data : ℕ → Byte) (len : ℤ) :
    FileSizes (pafsWrite k name data len).1.fs := by
  refine pafsWrite_keeps h name data len hs (fun hcr => hs.created hcr) fun ino h' hs' => ?_
  exact hs'.writeFile h' ino data len

theorem create (h : Inv k.fs) (hs : FileSizes k.fs) {d : ℕ} (hd : d < 128) (name : CString)
    (isDir : Bool) : FileSizes (pafsCreate k d name isDir).1.fs :=
  pafsCreate_keeps h hd name isDir hs fun hcr => hs.created hcr

theorem delete (h : Inv k.fs) (hs : FileSizes k.fs) (d : ℕ) (name : CString) :
    FileSizes (pafsDelete k d name).1.fs :=
  pafsDelete_keeps h d name hs fun hdel => hs.deleted hdel

end FileSizes

end PekerOS.Pafs
