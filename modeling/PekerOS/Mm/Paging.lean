import PekerOS.Mm.Pmm

/-!
# Paging

`paging.c` on the memory the tables lie in. The kernel edits its page directory and its page tables
through virtual addresses, `0xC0000000` above the frame, and the processor translates these addresses
with the tables themselves; so every access goes through `translate`, and one that is not mapped is a
page fault, in which the kernel halts. Frames and pages are numbered. Supervisor writes ignore the
write-protect bit: the kernel never sets `CR0.WP`.

## Main definitions

* `Entry`, `Machine`: entries, and the memory with the registers and variables of `paging.c`
* `translate`, `editEntry`: the processor's translation, and a store through it
* `initPaging`, `pagingMapMemory`: the functions
* `PagingOp`, `KernelCall`, `KernelCall.ops`: where the kernel maps memory
-/

namespace PekerOS.Mm

/-- `PAGE_SIZE` -/
abbrev pageSize : Word := 4096#32

/-- `struct page_table_entry`, and `struct page_dir_entry` with its `pt_frame`; `rest` are the bits
that `paging.c` never names. -/
structure Entry where
  present : Bool
  rw : Bool
  user : Bool
  rest : BitVec 9
  frame : ℕ
deriving DecidableEq, Inhabited

/-- The tables the processor uses: those of `boot.s`, or a directory in a frame. -/
inductive Cr3
  | boot
  | directory (frame : ℕ)
deriving DecidableEq

/-- Memory, as the table that each frame would be, and the state of the memory management. -/
structure Machine where
  mem : ℕ → Table 1024 Entry
  cr3 : Cr3
  kernelDirectory : Word
  pmm : Pmm

/-- The bounds the linker gives to the read-only parts of the image. -/
structure Sections where
  textStart : Word
  textEnd : Word
  rodataStart : Word
  rodataEnd : Word

/-- `v >> 22` -/
def pdIdx (v : Word) : ℕ := (v >>> 22).toNat

/-- `(v >> 12) & 0x3FF` -/
def ptIdx (v : Word) : ℕ := ((v >>> 12) &&& 0x3FF#32).toNat

/-- The frame of a physical address, and the page of a virtual one. -/
def frameOf (addr : Word) : ℕ := (addr >>> 12).toNat

/-- The frame a virtual address is mapped to. `boot.s` maps the first 512 MB to the higher half, and
to themselves except for the first 4 MB. -/
def translate (cr3 : Cr3) (mem : ℕ → Table 1024 Entry) (v : Word) : Option ℕ :=
  match cr3 with
  | .boot =>
    if 768 ≤ pdIdx v ∧ pdIdx v < 896 then some (frameOf (v - kernelBase))
    else if 1 ≤ pdIdx v ∧ pdIdx v < 128 then some (frameOf v)
    else none
  | .directory pd =>
    let pde := (mem pd).get (pdIdx v)
    if pde.present then
      let pte := (mem pde.frame).get (ptIdx v)
      if pte.present then some pte.frame else none
    else none

/-- Entry `i` of the table at a virtual address; `none` on a page fault. -/
def readEntry (s : Machine) (table : Word) (i : ℕ) : Option Entry :=
  (translate s.cr3 s.mem table).map fun f => (s.mem f).get i

/-- A store into entry `i` of the table at a virtual address; `none` on a page fault. -/
def editEntry (s : Machine) (table : Word) (i : ℕ) (g : Entry → Entry) : Option Machine :=
  (translate s.cr3 s.mem table).map fun f =>
    { s with mem := Function.update s.mem f ((s.mem f).set i (g ((s.mem f).get i))) }

/-- A loop over the entries of a table. -/
def editTable (s : Machine) (table : Word) (g : ℕ → Entry → Entry) : Option Machine :=
  (List.range 1024).foldlM (fun s j => editEntry s table j (g j)) s

/-- An entry that refers to a frame, readable and writable from everywhere. -/
def Entry.point (frame : ℕ) (e : Entry) : Entry :=
  { e with present := true, rw := true, user := true, frame := frame }

/-- A table in the frame at `ptFrame` is filled, and directory entry `k` refers to it. -/
def linkTable (s : Machine) (k : ℕ) (ptFrame : Word) (g : ℕ → Entry → Entry) : Option Machine := do
  let s ← editTable s (ptFrame + kernelBase) g
  editEntry s s.kernelDirectory k (Entry.point (frameOf ptFrame))

/-! ## `init_paging` -/

/-- Entry `j` of the table for the `i`-th 4 MB of memory. -/
def directEntry (sec : Sections) (totalFrames : Word) (i j : ℕ) (e : Entry) : Entry :=
  let frameIdx := BitVec.ofNat 32 i * 1024#32 + BitVec.ofNat 32 j
  if frameIdx < totalFrames then
    let virtAddr := frameIdx * pageSize + kernelBase
    let isReadonly := sec.textStart ≤ virtAddr ∧ virtAddr < sec.textEnd ∨
      sec.rodataStart ≤ virtAddr ∧ virtAddr < sec.rodataEnd
    { e with present := true, rw := !isReadonly, user := true, frame := frameIdx.toNat % 2 ^ 20 }
  -- nothing but the present bit is written
  else { e with present := false }

/-- The table for the `i`-th 4 MB of memory, and its entry in the directory. -/
def directTable (sec : Sections) (totalFrames : Word) (s : Machine) (i : ℕ) : Option Machine :=
  let (pmm, ptFrame) := allocFrame s.pmm
  linkTable { s with pmm := pmm } (768 + i) ptFrame (directEntry sec totalFrames i)

/-- `init_paging`, on the machine that `boot.s` and `init_pmm` left. The loop stops at the end of the
directory, after 256 tables. -/
def initPaging (sec : Sections) (s : Machine) : Option Machine := do
  let (pmm, pdFrame) := allocFrame s.pmm
  let s ← editTable { s with pmm := pmm, kernelDirectory := pdFrame + kernelBase }
    (pdFrame + kernelBase)
    fun _ e => { e with present := false, rw := true, user := false, frame := 0 }
  -- not `total_frames` of `pmm.c`, and the product wraps at 4 GB
  let totalFrames := s.pmm.totalMemoryKb * 1024#32 / pageSize
  let numTables := (totalFrames + 1023#32) / 1024#32
  let s ← (List.range (min numTables.toNat 256)).foldlM (directTable sec totalFrames) s
  return { s with cr3 := .directory (frameOf pdFrame) }

/-! ## `paging_map_memory` -/

/-- The page table of a directory entry, made if it is missing. -/
def tableFor (s : Machine) (k : ℕ) : Option (Machine × Word) := do
  let pde ← readEntry s s.kernelDirectory k
  if pde.present then
    return (s, BitVec.ofNat 32 pde.frame <<< 12 + kernelBase)
  else
    -- what else was in the frame stays
    let (pmm, ptFrame) := allocFrame s.pmm
    let s ← linkTable { s with pmm := pmm } k ptFrame fun _ e => { e with present := false }
    return (s, ptFrame + kernelBase)

/-- One round of the loop of `paging_map_memory`. -/
def mapPage (s : Machine) (p v : Word) : Option Machine := do
  let (s, pt) ← tableFor s (pdIdx v)
  editEntry s pt (ptIdx v) (Entry.point (frameOf p))

/-- `num_pages` -/
def numPages (size : Word) : Word := (size + pageSize - 1#32) / pageSize

/-- `paging_map_memory` -/
def pagingMapMemory (s : Machine) (phys virt size : Word) : Option Machine := do
  let s ← (List.range (numPages size).toNat).foldlM
    (fun s i => mapPage s (phys + BitVec.ofNat 32 i * pageSize) (virt + BitVec.ofNat 32 i * pageSize)) s
  return { s with cr3 := .directory (frameOf (s.kernelDirectory - kernelBase)) }

/-! ## The callers -/

/-- Where a caller has the physical memory from. -/
inductive Source
  | phys (addr : Word)
  | allocFrame
  | allocContiguousFrames (count : Word)

def Source.take (p : Pmm) : Source → Pmm × Word
  | .phys addr => (p, addr)
  | .allocFrame => Mm.allocFrame p
  | .allocContiguousFrames count => Mm.allocContiguousFrames p count

/-- A request for a frame alone, or a request for memory that is then mapped. -/
inductive PagingOp
  | allocFrame
  | map (source : Source) (virt size : Word)

/-- One operation of the kernel; `none` on a page fault. -/
def Machine.step (s : Machine) : PagingOp → Option Machine
  | .allocFrame => some { s with pmm := (Mm.allocFrame s.pmm).1 }
  | .map source virt size =>
    let (pmm, phys) := source.take s.pmm
    pagingMapMemory { s with pmm := pmm } phys virt size

/-- The places in the kernel that map memory or take a frame. -/
inductive KernelCall
  | initRtl8139
  | initE1000 (physAddr : Word)
  | e1000SendPacket
  | initVbe (lfbPhys width height : Word) (heapFull : Bool)
  | sysSbrk (heapEnd increment : Word)
  | elfLoad (startVirt memSize : Word)
  | initAc97

/-- What a call does to the memory, in order. -/
def KernelCall.ops : KernelCall → List PagingOp
  | .initRtl8139 =>
    [.map (.allocContiguousFrames 3#32) 0xD0000000#32 (3#32 * 4096#32),
      .map (.allocContiguousFrames 2#32) 0xD0004000#32 (2#32 * 4096#32)]
  | .initE1000 physAddr =>
    [.map (.phys physAddr) 0xD0010000#32 (128#32 * 1024#32),
      .map (.allocContiguousFrames 1#32) 0xD0020000#32 4096#32,
      .map (.allocContiguousFrames (128#32 * 2048#32 / 4096#32)) 0xD0030000#32 (128#32 * 2048#32),
      .map (.allocContiguousFrames 1#32) 0xD0040000#32 4096#32]
  | .e1000SendPacket => [.map (.allocContiguousFrames 64#32) 0xD0060000#32 (128#32 * 1024#32)]
  | .initVbe lfbPhys width height heapFull =>
    if lfbPhys < 0x100000#32 then []
    else .map (.phys lfbPhys) 0xE0000000#32 (width * height * 4#32) ::
      if heapFull then [.map (.phys 0x02000000#32) 0xD0000000#32 (width * height * 4#32)] else []
  | .sysSbrk heapEnd increment =>
    let oldPage := (heapEnd + 4095#32) / 4096#32
    let newPage := (heapEnd + increment + 4095#32) / 4096#32
    (List.range' oldPage.toNat (newPage.toNat - oldPage.toNat)).map fun i =>
      .map .allocFrame (BitVec.ofNat 32 i * 4096#32) 4096#32
  | .elfLoad startVirt memSize =>
    (List.range ((memSize + 4095#32) / 4096#32).toNat).map fun j =>
      .map .allocFrame (startVirt + BitVec.ofNat 32 j * 4096#32) 4096#32
  | .initAc97 => [.allocFrame]

end PekerOS.Mm
