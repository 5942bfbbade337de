import PekerOS.Lib.Table

/-!
# The kernel heap

`kheap.c` on the memory it works in: a header is four words at a 4-byte aligned address, and the
headers live inside the space they describe. Addresses, sizes and their sums are 32-bit words, as in
the code, so that a sum can wrap and two headers can overlap.

## Main definitions

* `Field`, `Heap`, `Heap.get`, `Heap.set`: the fields of the headers in memory
* `initKheap`, `kmalloc`, `kfree`: the functions
* `Arena`, `HeapStep`, `HeapReachable`: runs, with the live allocations kept beside the heap
-/

namespace PekerOS.Kheap

/-- `HEAP_SIZE` -/
abbrev heapSize : ℕ := 4 * 1024 * 1024

/-- `sizeof(struct heap_header)` -/
abbrev headerSize : Word := 16#32

/-- The fields of `struct heap_header`. -/
inductive Field
  | size
  | isFree
  | next
  | prev
deriving DecidableEq

/-- Where a field lies in the header. -/
def Field.offset : Field → Word
  | .size => 0#32
  | .isFree => 4#32
  | .next => 8#32
  | .prev => 12#32

/-- The words of memory by their address, and `heap_first`. -/
structure Heap where
  mem : Word → Word
  first : Word

namespace Heap

def get (h : Heap) (f : Field) (p : Word) : Word := h.mem (p + f.offset)

def set (h : Heap) (f : Field) (p v : Word) : Heap :=
  { h with mem := Function.update h.mem (p + f.offset) v }

/-- `p->size` -/
abbrev size (h : Heap) (p : Word) : Word := h.get .size p

/-- `p->is_free` -/
abbrev isFree (h : Heap) (p : Word) : Word := h.get .isFree p

/-- `p->next` -/
abbrev next (h : Heap) (p : Word) : Word := h.get .next p

/-- `p->prev` -/
abbrev prev (h : Heap) (p : Word) : Word := h.get .prev p

/-- A word stored by the owner of an allocation. -/
def store (h : Heap) (addr v : Word) : Heap := { h with mem := Function.update h.mem addr v }

end Heap

/-- Where the linker puts `heap_space`: page aligned, not at 0, inside the address space. -/
structure Space where
  addr : Word
  aligned : addr.toNat % 4096 = 0
  pos : 0 < addr.toNat
  fits : addr.toNat + heapSize ≤ 2 ^ 32

/-- `init_kheap`, with whatever was in memory before. -/
def initKheap (space : Space) (mem : Word → Word) : Heap :=
  let h : Heap := ⟨mem, space.addr⟩
  let h := h.set .size h.first (BitVec.ofNat 32 heapSize)
  let h := h.set .isFree h.first 1#32
  let h := h.set .next h.first 0#32
  h.set .prev h.first 0#32

/-- `aligned_size` -/
def alignedSize (size : Word) : Word :=
  if size % 4#32 ≠ 0#32 then size + (4#32 - size % 4#32) else size

/-- `total_size` -/
def totalSize (size : Word) : Word := alignedSize size + headerSize

/-- The split of a block that is larger than needed. -/
def splitBlock (h : Heap) (current total : Word) : Heap :=
  let newBlock := current + total
  let h := h.set .size newBlock (h.size current - total)
  let h := h.set .isFree newBlock 1#32
  let h := h.set .prev newBlock current
  let h := h.set .next newBlock (h.next current)
  -- `next` of the old block is still the block behind it
  let h := if h.next current ≠ 0#32 then h.set .prev (h.next current) newBlock else h
  let h := h.set .next current newBlock
  h.set .size current total

/-- The block that was found, split if the rest can hold a header, is marked as taken. -/
def takeBlock (h : Heap) (current total : Word) : Heap :=
  let h := if total + headerSize + 4#32 < h.size current then splitBlock h current total else h
  h.set .isFree current 0#32

/-- The first-fit loop of `kmalloc`; `none` if it has not ended after the given number of rounds. -/
def kmallocLoop (h : Heap) (total : Word) : ℕ → Word → Option (Heap × Word)
  | 0, _ => none
  | n + 1, current =>
    if current = 0#32 then some (h, 0#32)
    else if h.isFree current ≠ 0#32 ∧ total ≤ h.size current then
      some (takeBlock h current total, current + headerSize)
    else kmallocLoop h total n (h.next current)

/-- More rounds than headers fit into the heap. -/
def maxRounds : ℕ := heapSize / 16 + 1

/-- `kmalloc`: the heap and the pointer it returns; `none` if the search does not end. -/
def kmalloc (h : Heap) (size : Word) : Option (Heap × Word) :=
  if size = 0#32 then some (h, 0#32) else kmallocLoop h (totalSize size) maxRounds h.first

/-- Merge Right -/
def mergeRight (h : Heap) (block : Word) : Heap :=
  let h := h.set .size block (h.size block + h.size (h.next block))
  let h := h.set .next block (h.next (h.next block))
  if h.next block ≠ 0#32 then h.set .prev (h.next block) block else h

/-- Merge Left -/
def mergeLeft (h : Heap) (block : Word) : Heap :=
  let h := h.set .size (h.prev block) (h.size (h.prev block) + h.size block)
  let h := h.set .next (h.prev block) (h.next block)
  if h.next block ≠ 0#32 then h.set .prev (h.next block) (h.prev block) else h

/-- `kfree` -/
def kfree (h : Heap) (ptr : Word) : Heap :=
  if ptr = 0#32 then h
  else
    let block := ptr - headerSize
    -- freed twice: the heap stays as it is
    if h.isFree block ≠ 0#32 then h
    else
      let h := h.set .isFree block 1#32
      let h :=
        if h.next block ≠ 0#32 ∧ h.isFree (h.next block) ≠ 0#32 then mergeRight h block else h
      -- the block may have grown to the right by now
      if h.prev block ≠ 0#32 ∧ h.isFree (h.prev block) ≠ 0#32 then mergeLeft h block else h

/-! ## Runs -/

/-- The heap and the live allocations: for each pointer, the size that was asked for. -/
structure Arena where
  heap : Heap
  live : Word → Option Word

/-- A call of `kmalloc` for at most `HEAP_SIZE` bytes, a call of `kfree` for a live pointer, or a
store of an owner into its allocation. -/
inductive HeapStep : Arena → Arena → Prop
  | kmalloc {s : Arena} {size p : Word} {h : Heap} (hsize : size.toNat ≤ heapSize)
      (hcall : kmalloc s.heap size = some (h, p)) :
      HeapStep s ⟨h, if p = 0#32 then s.live else Function.update s.live p (some size)⟩
  | kfree {s : Arena} {p n : Word} (hlive : s.live p = some n) :
      HeapStep s ⟨Kheap.kfree s.heap p, Function.update s.live p none⟩
  | store {s : Arena} {p n addr v : Word} (hlive : s.live p = some n)
      (hlo : p.toNat ≤ addr.toNat) (hhi : addr.toNat < p.toNat + n.toNat)
      (haligned : 4 ∣ addr.toNat) : HeapStep s ⟨s.heap.store addr v, s.live⟩

/-- The states reached from `init_kheap`. -/
def HeapReachable (space : Space) (s : Arena) : Prop :=
  ∃ mem, Relation.ReflTransGen HeapStep ⟨initKheap space mem, fun _ => none⟩ s

end PekerOS.Kheap
