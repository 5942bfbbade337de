import PekerOS.Fs.Pafs.Creation
import PekerOS.Fs.Pafs.Names

/-!
# PAFS: writing a file by name and reading it back

`pafs_write` overwrites a file of the root from its start, block by block, creating it first if the
name is new, and sets its size to what it could write. `pafs_read` follows the block list up to the
size. The two meet in the block list: whatever was written is read back.

## Main definitions

* `Laid ino pos n data fs fs'`: `n` bytes of `data` laid out from `pos` on
* `blocksNeeded fs name len`: the blocks that `pafs_write` has to allocate

## Main results

* `writeLoop_laid`, `pafsWriteFile_laid`: writing
* `readLoop_eq`, `pafsRead_file`: reading
* `Created.findFreeBlocks`: the block that a creation takes
* `write_read`: **the round trip**
-/

namespace PekerOS.Pafs

/-- `n` bytes of `data` are laid out from `pos` on, and the bytes before stay. -/
structure Laid (ino pos n : ℕ) (data : ℕ → Byte) (fs fs' : State) : Prop where
  written : ∀ p, pos ≤ p → p < pos + n →
    fs'.block ino (p / 512) ≠ 0#32 ∧ byteAt fs' ino p = data (p - pos)
  before : ∀ p < pos, fs.block ino (p / 512) ≠ 0#32 →
    fs'.block ino (p / 512) ≠ 0#32 ∧ byteAt fs' ino p = byteAt fs ino p

/-- Every allocated block of the directory is full of entries. -/
def blocksFull (fs : State) (d : ℕ) : Prop :=
  (fs.inode d).size.toNat + 512 * (missingBlocks fs d 14).card = 14 * 512

instance (fs : State) (d : ℕ) : Decidable (blocksFull fs d) := by
  unfold blocksFull
  infer_instance

/-- The blocks that `pafs_write` has to allocate: those that the file lacks, or for a new file all of
them and one for its entry if no block of the root has room. -/
def blocksNeeded (fs : State) (name : CString) (len : ℕ) : ℕ :=
  let root := fs.sb.rootInode.toNat
  let n := (min len 7168 + 511) / 512
  if pafsFindEntry fs root name = -1 then n + if blocksFull fs root then 1 else 0
  else (missingBlocks fs (pafsFindEntry fs root name).toNat n).card

/-! ## Writing -/

section Write

variable {fs : State} {ino : ℕ} {data : ℕ → Byte}

namespace Laid

variable {pos n n' : ℕ} {fs₁ fs₂ : State}

theorem refl (fs : State) (ino pos : ℕ) (data : ℕ → Byte) : Laid ino pos 0 data fs fs :=
  ⟨fun p h₁ h₂ => by omega, fun p _ hp => ⟨hp, rfl⟩⟩

/-- Two stretches, the second empty or where the first ends. -/
theorem append {pos' : ℕ} {data' : ℕ → Byte} (h : Laid ino pos n data fs fs₁)
    (h' : Laid ino pos' n' data' fs₁ fs₂) (hle : pos + n ≤ pos') (hpos : n' = 0 ∨ pos' = pos + n)
    (hdata : ∀ k, data' k = data (n + k)) : Laid ino pos (n + n') data fs fs₂ where
  written p hlo hhi := by
    by_cases hp : p < pos + n
    · obtain ⟨hne, hbyte⟩ := h.written p hlo hp
      obtain ⟨hne', hbyte'⟩ := h'.before p (by omega) hne
      exact ⟨hne', hbyte'.trans hbyte⟩
    · obtain ⟨hne, hbyte⟩ := h'.written p (by omega) (by omega)
      refine ⟨hne, hbyte.trans ?_⟩
      rw [hdata, show n + (p - pos') = p - pos by omega]
  before p hp hne := by
    obtain ⟨hne₁, hbyte₁⟩ := h.before p hp hne
    obtain ⟨hne₂, hbyte₂⟩ := h'.before p (by omega) hne₁
    exact ⟨hne₂, hbyte₂.trans hbyte₁⟩

end Laid

/-- A block taken for an empty slot and then written from its start. -/
theorem laid_block {i n : ℕ} {buf : Sector} {fs₁ : State} (h : Inv fs) (h₁ : Inv fs₁)
    (he : Ensured ino i fs fs₁) (hn : n ≤ 512) (hbuf : ∀ j < n, buf.get j = data j) :
    Laid ino (512 * i) n data fs (pafsDiskWrite fs₁ (fs₁.block ino i).toNat buf) where
  written p hlo hhi := by
    have hdiv : p / 512 = i := by omega
    refine ⟨by rw [hdiv]; exact he.self, ?_⟩
    rw [byteAt, hdiv, block_pafsDiskWrite, disk_pafsDiskWrite_self, hbuf _ (by omega),
      show p % 512 = p - 512 * i by omega]
  before p hp hne := by
    obtain ⟨hblock, hbyte⟩ := he.byteAt h hne
    have hne₁ : fs₁.block ino (p / 512) ≠ 0#32 := hblock ▸ hne
    refine ⟨hne₁, ?_⟩
    rw [← hbyte, byteAt, block_pafsDiskWrite, disk_pafsDiskWrite_ne, byteAt]
    -- an earlier slot names another block
    intro heq
    have := (h₁.inj hne₁ heq).2
    omega

/-- **The write loop** of `pafs_write` lays out as much as it reports: what fits into the 14 blocks, or
less when no block is free. -/
theorem writeLoop_laid {len r i done : ℕ} (h : Inv fs) (ht : (fs.inode ino).type = pafsTypeFile)
    (hr : i + r = 14) :
    ∃ fs' w, writeLoop ino data len r fs i done = (fs', done + w) ∧
      Laid ino (512 * i) w (fun k => data (done + k)) fs fs' ∧
      Filled ino (512 * i) (min (len - done) (512 * r)) w fs fs' := by
  -- `r` counts the blocks that the loop can still fill
  induction r generalizing fs i done with
  | zero =>
    rw [show min (len - done) (512 * 0) = 0 by omega]
    exact ⟨fs, 0, rfl, Laid.refl fs ino _ _, Filled.refl fs ino _⟩
  | succ r ih =>
    rw [writeLoop]
    split
    · next hdone =>
      cases he : ensureBlock fs ino i with
      | none =>
        -- no block is left, and the loop breaks off
        refine ⟨fs, 0, rfl, Laid.refl fs ino _ _, Filled.stopped ?_ (ensureBlock_eq_none.mp he).2⟩
        rw [show 512 * i / 512 = i by omega]
        exact (ensureBlock_eq_none.mp he).1
      | some fs₁ =>
        obtain ⟨h₁, ho₁, -⟩ := h.ensureBlock ht (by omega) he
        have hens := ensured_of_ensureBlock h ht (by omega) he
        have ht₁ := ho₁.type.trans ht
        obtain ⟨h₂, ho₂⟩ := h₁.writeBlock ht₁ i
          ((default : Sector).patch 0 (min (len - done) 512) fun k => data (done + k))
        obtain ⟨fs₂, w, hloop, hrest, hfill⟩ := @ih _ (i + 1) (done + min (len - done) 512) h₂
          (ho₂.type.trans ht₁) (by omega)
        -- this block, before the ones that follow it
        have hfirst := @laid_block _ _ (fun k => data (done + k)) i (min (len - done) 512)
          ((default : Sector).patch 0 (min (len - done) 512) fun k => data (done + k)) _ h h₁ hens
          (by omega) fun j hj => by
            rw [Table.get_patch _ _ (by omega), if_pos ⟨Nat.zero_le j, by omega⟩, Nat.sub_zero]
        have hle := hfill.le
        dsimp only
        refine ⟨fs₂, min (len - done) 512 + w, by rw [hloop, Nat.add_assoc],
          hfirst.append hrest (by omega) (by omega) fun k => by rw [Nat.add_assoc], by omega,
          fun hshort => ?_, fun n hn => ?_⟩
        · rw [show 512 * i + (min (len - done) 512 + w) = 512 * (i + 1) + w by omega]
          exact hfill.short (by omega)
        · have hbalance := balanced_ensureBlock h ht (show i < 14 by omega) (show i < n by omega) he
          exact hbalance.trans (hfill.balance n (by omega))
    · next hdone =>
      rw [show min (len - done) (512 * (r + 1)) = 0 by omega]
      exact ⟨fs, 0, rfl, Laid.refl fs ino _ _, Filled.refl fs ino _⟩

/-- **Overwriting a file**: as much as the call reports is the file afterwards. -/
theorem pafsWriteFile_laid {k : Kernel} {len : ℤ} (h : Inv k.fs)
    (ht : (k.fs.inode ino).type = pafsTypeFile) :
    ∃ w : ℕ, (pafsWriteFile k ino data len).2 = w ∧
      Filled ino 0 (min len.toNat 7168) w k.fs (pafsWriteFile k ino data len).1.fs ∧
      fileBytes (pafsWriteFile k ino data len).1.fs ino = (List.range w).map data ∧
      NoHoles (pafsWriteFile k ino data len).1.fs ino := by
  have hlt : ino < 128 := State.lt_of_type_ne (by rw [ht]; decide)
  -- what the loop has laid out, before the size is stored
  obtain ⟨fs₁, w, hloop, hlaid, hfill⟩ := @writeLoop_laid _ _ data len.toNat 14 0 0 h ht rfl
  have hinv := (@Inv.writeLoop _ _ 0 data len.toNat 14 0 h ht rfl).1
  have hfs := @fs_pafsWriteFile k ino data len ht
  rw [hloop] at hinv hfs
  rw [Nat.zero_add] at hloop hfs
  rw [show min (len.toNat - 0) (512 * 14) = min len.toNat 7168 by omega] at hfill
  have hle := hfill.le
  have hinode : (pafsWriteFile k ino data len).1.fs.inode ino =
      { fs₁.inode ino with size := BitVec.ofNat 32 w } := by
    rw [hfs]
    exact State.inode_setSize_self _ hlt _
  have hsize : ((pafsWriteFile k ino data len).1.fs.inode ino).size.toNat = w := by
    rw [hinode, BitVec.toNat_ofNat]
    omega
  have hblock : ∀ s, (pafsWriteFile k ino data len).1.fs.block ino s = fs₁.block ino s := fun s => by
    rw [State.block, hinode, State.block]
  have hmap : (pafsWriteFile k ino data len).1.fs.blockBitmap = fs₁.blockBitmap := by
    rw [hfs]
    rfl
  -- each byte counted lies in a block the file has
  have hwritten : ∀ p < w, fs₁.block ino (p / 512) ≠ 0#32 ∧ byteAt fs₁ ino p = data p := fun p hp => by
    have hp' := hlaid.written p (by omega) (by omega)
    simpa using hp'
  refine ⟨w, ?_, ⟨hle, fun hshort => ?_, fun n hn => ?_⟩, ?_, fun p hp => ?_⟩
  · simp [pafsWriteFile, ht, hloop]
  · rw [hblock, findFreeBlock_congr hmap]
    exact hfill.short hshort
  · -- storing the size takes no block
    have hbalance := hfill.balance n hn
    rwa [Balanced, missingBlocks_congr hblock, hmap]
  · rw [fileBytes, hsize]
    apply List.map_congr_left
    intro p hp
    obtain ⟨hne, hbyte⟩ := hwritten p (List.mem_range.mp hp)
    rw [← hbyte, byteAt, hblock, hfs, (State.SameData.saveInode hlt).data _ (hinv.data hne), byteAt]
    rfl
  · rw [hsize] at hp
    rw [hblock]
    exact (hwritten p hp).1

end Write

/-! ## Reading -/

section Read

variable {fs fs' : State} {d ino : ℕ} {name : CString}

/-- **The read loop** of `pafs_read` copies the bytes from its block on, as far as there are blocks. -/
theorem readLoop_eq {n i left : ℕ} (hleft : left ≤ 512 * n)
    (hblocks : ∀ p, 512 * i ≤ p → p < 512 * i + left → fs.block ino (p / 512) ≠ 0#32) :
    readLoop fs (fs.inode ino) n i left =
      (List.range left).map fun k => byteAt fs ino (512 * i + k) := by
  induction n generalizing i left with
  | zero =>
    obtain rfl : left = 0 := by omega
    rfl
  | succ n ih =>
    rw [readLoop]
    by_cases hpos : 0 < left
    · have hne := hblocks (512 * i) le_rfl (by omega)
      rw [show 512 * i / 512 = i by omega] at hne
      have hfirst := blockBytes_eq fs ino i (show 0 + min left 512 ≤ 512 by omega)
      rw [if_pos ⟨hpos, hne⟩]
      dsimp only
      -- the part of block `i`, then the loop from block `i + 1` on
      rw [ih (by omega) fun p hlo hhi => hblocks p (by omega) (by omega)]
      conv_rhs => rw [show left = min left 512 + (left - min left 512) by omega, range_map_append]
      refine congrArg₂ (· ++ ·) hfirst ?_
      apply List.map_congr_left
      intro k hk
      have hlt := List.mem_range.mp hk
      rw [show 512 * (i + 1) + k = 512 * i + (min left 512 + k) by omega]
    · rw [if_neg fun h => hpos h.1, show left = 0 by omega]
      rfl

/-- **Reading a file by name**: the start of its contents. -/
theorem pafsRead_file {k : Kernel} {maxLen : ℤ} (h : Inv k.fs)
    (hfind : pafsFindEntry k.fs 0 name = (ino : ℕ)) (ht : (k.fs.inode ino).type = pafsTypeFile)
    (hcap : (k.fs.inode ino).size.toNat ≤ 7168) (hholes : NoHoles k.fs ino) (hmax : 0 ≤ maxLen) :
    (pafsRead k name maxLen).2.1 = min ((k.fs.inode ino).size.toNat : ℤ) maxLen ∧
      (fileBytes k.fs ino).take maxLen.toNat <+: (pafsRead k name maxLen).2.2 := by
  have hroot : k.fs.sb.rootInode.toNat = 0 := by rw [h.root]; rfl
  -- the size is small, so as an `int` it is the same
  have hint : (k.fs.inode ino).size.toInt = (k.fs.inode ino).size.toNat :=
    BitVec.toInt_eq_toNat_of_lt (by omega)
  have htotal : (min (k.fs.inode ino).size.toInt maxLen).toNat =
      min (k.fs.inode ino).size.toNat maxLen.toNat := by
    rw [hint]
    omega
  have hloop : readLoop k.fs (k.fs.inode ino) 14 0 (min (k.fs.inode ino).size.toInt maxLen).toNat =
      (fileBytes k.fs ino).take maxLen.toNat := by
    rw [htotal, readLoop_eq (by omega) fun p _ hhi => hholes p (by omega), fileBytes, ← List.map_take,
      List.take_range, Nat.min_comm]
    simp only [Nat.mul_zero, Nat.zero_add]
  have hread : (pafsRead k name maxLen).2 =
      ((((fileBytes k.fs ino).take maxLen.toNat).length : ℤ), (fileBytes k.fs ino).take maxLen.toNat ++
        if (((fileBytes k.fs ino).take maxLen.toNat).length : ℤ) < maxLen then [0#8] else []) := by
    rw [← hloop]
    simp [pafsRead, hroot, hfind, ht]
  rw [hread]
  refine ⟨?_, List.prefix_append _ _⟩
  simp only [fileBytes, List.length_take, List.length_map, List.length_range]
  omega

theorem findSome?_congr {α β : Type} {f g : α → Option β} {l : List α} (h : ∀ a ∈ l, f a = g a) :
    l.findSome? f = l.findSome? g := by
  induction l with
  | nil => rfl
  | cons a l ih =>
    rw [List.findSome?_cons, List.findSome?_cons, h a List.mem_cons_self,
      ih fun b hb => h b (List.mem_cons_of_mem a hb)]

/-- Lookup reads one directory and its blocks. -/
theorem Untouched.findEntry (h : Untouched d fs fs') (name : CString) :
    pafsFindEntry fs' d name = pafsFindEntry fs d name := by
  have hread : ∀ i, (fs.inode d).blocks.get i ≠ 0#32 →
      pafsDiskRead fs' ((fs.inode d).blocks.get i).toNat =
        pafsDiskRead fs ((fs.inode d).blocks.get i).toNat := fun i hi => h.data i hi
  have hslot : findSlot fs' (fs.inode d) name = findSlot fs (fs.inode d) name := by
    refine findSome?_congr fun i hi => ?_
    rw [hread i (by simpa using List.mem_takeWhile_imp hi)]
  rw [pafsFindEntry, pafsFindEntry, h.inode, hslot]
  split
  · rfl
  · cases hs : findSlot fs (fs.inode d) name with
    | none => rfl
    | some p =>
      -- the scan stops before the first zero block number
      obtain ⟨i, hi, hp⟩ := List.exists_of_findSome?_eq_some hs
      obtain ⟨j, -, rfl⟩ := Option.map_eq_some_iff.mp hp
      dsimp only
      rw [hread i (by simpa using List.mem_takeWhile_imp hi)]

end Read

/-! ## The blocks of a creation -/

section Blocks

variable {fs fs' mid : State} {d ino new n m : ℕ} {name : CString} {isDir : Bool}

theorem Layout.blocksFull_iff (hl : Layout fs.disk (fs.inode d) n m) :
    blocksFull fs d ↔ n = 16 * m := by
  have hcap := hl.cap
  have hmissing : missingBlocks fs d 14 = Finset.Ico m 14 := by
    ext i
    simp only [missingBlocks, Finset.mem_filter, Finset.mem_range, Finset.mem_Ico]
    constructor
    · rintro ⟨hi, hzero⟩
      refine ⟨?_, hi⟩
      by_contra him
      exact hl.block_ne_zero (by omega) hzero
    · rintro ⟨him, hi⟩
      exact ⟨hi, hl.block_eq_zero him⟩
  rw [blocksFull, hl.size, hmissing, Nat.card_Ico]
  omega

/-- A creation takes a block exactly when those of the parent are full. -/
theorem Created.clearCount (hcr : Created fs d name isDir new n m mid fs') (hne : new ≠ d) :
    Bitmap.clearCount fs'.blockBitmap 18 4096 + (if blocksFull fs d then 1 else 0) =
      Bitmap.clearCount fs.blockBitmap 18 4096 := by
  have hparent := inode_newInode_ne fs (Ne.symm hne) isDir
  have hroom := hcr.room
  have hmap : fs'.blockBitmap = mid.blockBitmap := by
    rw [hcr.result]
    rfl
  rcases hcr.mid_eq with heq | ⟨m', b, -, hn, hm, hb, hl, heq⟩
  · have hl := hcr.layout
    rw [heq, hparent] at hl
    have hroomy : ¬blocksFull fs d := fun hfull => by
      have := (@Layout.blocksFull_iff fs d n m hl).mp hfull
      omega
    rw [hmap, heq, if_neg hroomy]
    rfl
  · rw [hparent] at hl
    have hrange := (mem_clearBits_of_findFreeBlock hb).1
    have hcount := Bitmap.clearCount_set (by omega) (findFreeBlock_some.mp hb).1
    have hfull : blocksFull fs d := (@Layout.blocksFull_iff fs d n m' hl).mpr hn
    have hgrown : mid.blockBitmap = Bitmap.set fs.blockBitmap b := by
      rw [heq]
      rfl
    rw [hmap, hgrown, if_pos hfull]
    exact hcount

end Blocks

/-! ## The round trip -/

/-- What `pafs_write` does once the inode is known. -/
theorem writeFile_read {k : Kernel} {name : CString} {data : ℕ → Byte} {len : ℤ} {ino : ℕ} (h : Inv k.fs)
    (hfind : pafsFindEntry k.fs 0 name = (ino : ℕ)) (hlen : 0 ≤ len) :
    let k' := (pafsWriteFile k ino data len).1
    let n := (pafsWriteFile k ino data len).2
    0 ≤ n →
      n ≤ min len 7168 ∧
      ((missingBlocks k.fs ino ((min len.toNat 7168 + 511) / 512)).card ≤
        Bitmap.clearCount k.fs.blockBitmap 18 4096 → n = min len 7168) ∧
      (∀ maxLen, 0 ≤ maxLen → (pafsRead k' name maxLen).2.1 = min n maxLen ∧
        (List.range (min n maxLen).toNat).map data <+: (pafsRead k' name maxLen).2.2) ∧
      pafsFindEntry k'.fs 0 name = (ino : ℕ) ∧ ∀ j, j ≠ ino → Untouched j k.fs k'.fs := by
  intro k' n hn
  have ht : (k.fs.inode ino).type = pafsTypeFile := by
    by_contra ht
    have hfail : n = -1 := by simp [n, pafsWriteFile, ht]
    omega
  obtain ⟨h', ho⟩ := h.writeFile ino data len
  obtain ⟨w, hw, hfill, hbytes, hholes⟩ := @pafsWriteFile_laid ino data k len h ht
  have hle := hfill.le
  have hroot : 0 ≠ ino := fun h0 => h.file_ne_zero ht h0.symm
  have hfind' : pafsFindEntry k'.fs 0 name = (ino : ℕ) :=
    ((Untouched.of_onlyFile ho hroot).findEntry name).trans hfind
  have hsize : (k'.fs.inode ino).size.toNat = w := by
    have hlength := congrArg List.length hbytes
    simpa [fileBytes] using hlength
  have hcap : (k'.fs.inode ino).size.toNat ≤ 7168 := by
    rw [hsize]
    omega
  change n = (w : ℤ) at hw
  rw [hw]
  refine ⟨by omega, fun henough => ?_, fun maxLen hmax => ?_, hfind',
    fun j hj => Untouched.of_onlyFile ho hj⟩
  · have hfull := (hfill.full (by omega) henough).1
    omega
  · obtain ⟨hres, hprefix⟩ := pafsRead_file h' hfind' (ho.type.trans ht) hcap hholes hmax
    refine ⟨by rw [hres, hsize], ?_⟩
    rw [hbytes, ← List.map_take, List.take_range] at hprefix
    rwa [show (min (w : ℤ) maxLen).toNat = min maxLen.toNat w by omega]

/-- **The round trip of a file of the root**: in every reachable state, for every name that fits and
every length, what `pafs_write` reports is at most 7168 bytes, and all of them with blocks enough;
`pafs_read` returns the beginning of it; and nothing but that file and the root directory changes. -/
theorem write_read (k₀ : Kernel) (ops : List Op) (name : CString) (hname : name.chars.length ≤ 27)
    (data : ℕ → Byte) (len : ℤ) (hlen : 0 ≤ len) :
    let k := run (pafsFormat k₀) ops
    let k' := (pafsWrite k name data len).1
    let n := (pafsWrite k name data len).2
    0 ≤ n →
      n ≤ min len 7168 ∧
      (blocksNeeded k.fs name len.toNat ≤ k.fs.sb.freeBlocks.toNat → n = min len 7168) ∧
      (∀ maxLen, 0 ≤ maxLen → (pafsRead k' name maxLen).2.1 = min n maxLen ∧
        (List.range (min n maxLen).toNat).map data <+: (pafsRead k' name maxLen).2.2) ∧
      ∀ j : ℕ, (j : ℤ) ≠ pafsFindEntry k'.fs k'.fs.sb.rootInode.toNat name →
        j ≠ k.fs.sb.rootInode.toNat → Untouched j k.fs k'.fs := by
  intro k k' n hn
  have h : Inv k.fs := Reachable.inv ⟨k₀, ops, rfl⟩
  have h' : Inv k'.fs := h.write name data len
  have hroot : k.fs.sb.rootInode.toNat = 0 := by rw [h.root]; rfl
  have hroot' : k'.fs.sb.rootInode.toNat = 0 := by rw [h'.root]; rfl
  have hfs : k.lock.touchDisk.fs = k.fs := by simp
  rw [hroot, hroot', blocksNeeded, hroot, h.count]
  rcases pafsWrite_cases h name data len with
    ⟨ino, hfind, heq⟩ | ⟨-, -, -, hfail⟩ | ⟨habsent, new, m, m', mid, -, hcr, heq⟩
  · -- the name is there
    have hk' : k' = (pafsWriteFile k.lock.touchDisk ino data len).1 := congrArg Prod.fst heq
    have hn' : n = (pafsWriteFile k.lock.touchDisk ino data len).2 := congrArg Prod.snd heq
    rw [hfind, if_neg (by omega), Int.toNat_natCast, hk', hn']
    obtain ⟨hle, hfull, hread, hfound, hframe⟩ :=
      writeFile_read (by rwa [hfs]) (by rwa [hfs]) hlen (hn'.symm ▸ hn)
    rw [hfs] at hfull hframe
    refine ⟨hle, hfull, hread, fun j hj _ => hframe j fun hino => hj ?_⟩
    rw [hfound, hino]
  · -- a name that could not be created has a negative result
    omega
  · -- the file is created first
    have hk' : k' = (pafsWriteFile (pafsCreate k.lock.touchDisk 0 name false).1 new data len).1 :=
      congrArg Prod.fst heq
    have hn' : n = (pafsWriteFile (pafsCreate k.lock.touchDisk 0 name false).1 new data len).2 :=
      congrArg Prod.snd heq
    have hpos := hcr.new_pos h
    rw [if_pos habsent, hk', hn']
    obtain ⟨hle, hfull, hread, hfound, hframe⟩ :=
      writeFile_read (hcr.inv_result h) (hcr.findEntry h hname) hlen (hn'.symm ▸ hn)
    refine ⟨hle, fun henough => hfull ?_, hread, fun j hj h0 => ?_⟩
    · -- the block of the directory entry was among those counted as needed
      have hclear := hcr.clearCount (by omega)
      have hcard := Finset.card_filter_le (Finset.range ((min len.toNat 7168 + 511) / 512)) fun i =>
        (pafsCreate k.lock.touchDisk 0 name false).1.fs.block new i = 0#32
      rw [Finset.card_range] at hcard
      change (missingBlocks _ _ _).card ≤ _ at hcard
      omega
    · have hino : j ≠ new := fun hino => hj (by rw [hfound, hino])
      exact (hcr.untouched h hino h0).trans (hframe j hino)

/-- Three bytes written to a new file of a fresh RAM disk. -/
theorem write_read_three :
    let name : CString := ⟨[97#8], by decide⟩
    let data : ℕ → Byte := fun i => BitVec.ofNat 8 (i + 1)
    let k := run (pafsFormat ramdiskKernel) []
    let k' := (pafsWrite k name data 3).1
    name.chars.length ≤ 27 ∧ (pafsWrite k name data 3).2 = 3 ∧ (pafsRead k' name 2).2.1 = 2 ∧
      [1#8, 2#8] <+: (pafsRead k' name 2).2.2 := by
  intro name data k k'
  have hres : (pafsWrite k name data 3).2 = 3 := by decide +kernel
  have htrip := write_read ramdiskKernel [] name (by decide) data 3 (by decide)
    (by rw [hres]; decide)
  obtain ⟨-, -, hread, -⟩ := htrip
  obtain ⟨hlength, hprefix⟩ := hread 2 (by decide)
  rw [hres] at hlength hprefix
  exact ⟨by decide, hres, hlength, hprefix⟩

end PekerOS.Pafs
