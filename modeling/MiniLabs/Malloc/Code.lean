/-
  mymalloc — the allocator itself, function by function.

  1. **State** — a `Heap` is a memory of block headers by address, `heap_head` and `malloc_count`; a
     pointer is its address and 0 is the null pointer.  Two fields are there for the statements only
     and no routine looks at them: `obtained`, the memory `vmalloc` has handed out, and `touched`,
     the addresses of the headers written so far.
  2. **Program** — `align_up` to `myfree`, each under its own name, in the order of the source.
     Sizes and pointers are 64-bit, and `wadd` and `wsub` wrap as `size_t` does; the lines of a
     routine that write to a header are one `setSize`, `setFree`, `setPrev` or `setNext` each.
  3. **Loops** — a loop over the list takes at most one round for each address; `none` means that
     the list runs in a circle.
  4. **What is idealised** — every routine runs under `heap_lock`, so a call is one step here
     (`Malloc.Steps` has its stores, `Malloc.SpinLock` the threads).  `vmalloc` is a function of the
     length asked for, and 0 is its failure; `vmfree` is never called by the source.  `mem` has one
     header at every address, so headers whose bytes overlap do not disturb one another (see
     `capacity_iff`); payloads are not modelled, only where they lie.  `malloc_count` is exact.
-/
import MiniLabs.Lib.Extents

set_option linter.unusedVariables false

namespace Malloc

open Extents

/-! ## 64-bit arithmetic -/

/-- How many addresses there are. -/
def addressSpace : Nat := 2 ^ 64

/-- `a + b` of type `size_t`, or of a pointer and an offset. -/
def wadd (a b : Nat) : Nat := (a + b) % addressSpace

/-- `a - b` of type `size_t`, or of a pointer and an offset. -/
def wsub (a b : Nat) : Nat := (a + (addressSpace - b)) % addressSpace

/-- `PAGE_SIZE`. -/
def pageSize : Nat := 4096
/-- `CHUNK_SIZE`. -/
def chunkSize : Nat := 64 * 1024
/-- `MIN_PAYLOAD`. -/
def minPayload : Nat := 8
/-- `sizeof(block_t)`. -/
def sizeofBlock : Nat := 32

/-- `align_up`: `~(align - 1)` has all 64 bits but the lowest. -/
def alignUp (x align : Nat) : Nat :=
  wsub (wadd x align) 1 &&& (addressSpace - 1 - wsub align 1)

/-- `request_size`. -/
def requestSize (size : Nat) : Nat :=
  let size := if size < minPayload then minPayload else size
  alignUp size 8

/-- `page_round`. -/
def pageRound (size : Nat) : Nat := alignUp size pageSize

/-! ## The heap -/

/-- `block_t`. -/
structure BlockT where
  size : Nat
  free : Bool
  prev : Nat
  next : Nat
  deriving DecidableEq, Repr

/-- The headers in memory, `heap_head` and `malloc_count`. -/
structure Heap where
  head : Nat
  mem : Nat → BlockT
  mallocCount : Nat
  obtained : List Extent
  touched : List Nat

namespace Heap

/-- The heap before the first call. -/
def init : Heap := ⟨0, fun _ => ⟨0, false, 0, 0⟩, 0, [], []⟩

/-- Write to the header at `a`. -/
def write (a : Nat) (f : BlockT → BlockT) (h : Heap) : Heap :=
  { h with mem := fun x => if x = a then f (h.mem x) else h.mem x, touched := a :: h.touched }

/-- `block->size = size`. -/
def setSize (a size : Nat) (h : Heap) : Heap := h.write a fun b => { b with size := size }

/-- `block->free = free`. -/
def setFree (a : Nat) (free : Bool) (h : Heap) : Heap := h.write a fun b => { b with free := free }

/-- `block->prev = prev`. -/
def setPrev (a prev : Nat) (h : Heap) : Heap := h.write a fun b => { b with prev := prev }

/-- `block->next = next`. -/
def setNext (a next : Nat) (h : Heap) : Heap := h.write a fun b => { b with next := next }

/-- `heap_head = head`. -/
def setHead (head : Nat) (h : Heap) : Heap := { h with head := head }

/-- `if (x != 0) { x->prev = prev; }`, which ends all surgery on the list. -/
def linkBack (x prev : Nat) (h : Heap) : Heap := if x ≠ 0 then h.setPrev x prev else h

/-- `vmalloc` has handed out the extent. -/
def obtain (e : Extent) (h : Heap) : Heap := { h with obtained := e :: h.obtained }

/-- `block->size`. -/
def size (h : Heap) (a : Nat) : Nat := (h.mem a).size

/-- `block->free`. -/
def free (h : Heap) (a : Nat) : Bool := (h.mem a).free

/-- `block->prev`. -/
def prev (h : Heap) (a : Nat) : Nat := (h.mem a).prev

/-- `block->next`. -/
def next (h : Heap) (a : Nat) : Nat := (h.mem a).next

end Heap

/-! ## The list of blocks -/

/-- `block_end`. -/
def blockEnd (block : Nat) (h : Heap) : Nat := wadd (wadd block sizeofBlock) (h.size block)

/-- The `while` loop of `insert_block`: the last block in front of `block`. -/
def findPlace (h : Heap) (block : Nat) : Nat → Nat → Option Nat
  | 0, _ => none
  | fuel + 1, cur =>
    if h.next cur ≠ 0 ∧ h.next cur < block then findPlace h block fuel (h.next cur)
    else some cur

/-- `insert_block`: the block becomes the head of the list, or stands behind the last block with a
    smaller address. -/
def insertBlock (block : Nat) (h : Heap) : Option Heap :=
  if h.head = 0 ∨ block < h.head then
    let h := h.setPrev block 0
    let h := h.setNext block h.head
    let h := h.linkBack h.head block
    some (h.setHead block)
  else
    (findPlace h block addressSpace h.head).map fun cur =>
      let h := h.setPrev block cur
      let h := h.setNext block (h.next cur)
      let h := h.linkBack (h.next cur) block
      h.setNext cur block

/-- `coalesce_with_next`: a free block absorbs its successor, if that is free and begins where the
    block ends. -/
def coalesceWithNext (block : Nat) (h : Heap) : Heap :=
  let next := h.next block
  if next ≠ 0 ∧ h.free block = true ∧ h.free next = true ∧ blockEnd block h = next then
    let h := h.setSize block (wadd (h.size block) (wadd sizeofBlock (h.size next)))
    let h := h.setNext block (h.next next)
    h.linkBack (h.next next) block
  else h

/-- `split_block`: the rest behind `size` bytes becomes a free block of its own, unless it would
    have less than a header and `MIN_PAYLOAD`. -/
def splitBlock (block size : Nat) (h : Heap) : Heap :=
  if h.size block < wadd (wadd size sizeofBlock) minPayload then h
  else
    let rest := wadd (wadd block sizeofBlock) size
    let h := h.setSize rest (wsub (wsub (h.size block) size) sizeofBlock)
    let h := h.setFree rest true
    let h := h.setPrev rest block
    let h := h.setNext rest (h.next block)
    let h := h.linkBack (h.next block) rest
    let h := h.setSize block size
    h.setNext block rest

/-- The loop of `find_free_block`: the first free block that is large enough, or 0 at the end. -/
def findFrom (h : Heap) (size : Nat) : Nat → Nat → Option Nat
  | 0, _ => none
  | fuel + 1, cur =>
    if cur = 0 then some 0
    else if h.free cur = true ∧ h.size cur ≥ size then some cur
    else findFrom h size fuel (h.next cur)

/-- `find_free_block`. -/
def findFreeBlock (size : Nat) (h : Heap) : Option Nat := findFrom h size addressSpace h.head

/-- How many bytes `extend_heap` asks `vmalloc` for. -/
def extendBytes (size : Nat) : Nat :=
  let bytes := pageRound (wadd sizeofBlock size)
  if bytes < chunkSize then chunkSize else bytes

/-- `extend_heap`: new memory becomes one free block, which is merged with its neighbours where it
    can be.  The block, or 0, and the heap. -/
def extendHeap (size : Nat) (vmalloc : Nat → Nat) (h : Heap) : Option (Nat × Heap) :=
  let bytes := extendBytes size
  let block := vmalloc bytes
  if block = 0 then some (0, h)
  else
    let h := h.obtain ⟨block, bytes⟩
    let h := h.setSize block (wsub bytes sizeofBlock)
    let h := h.setFree block true
    let h := h.setPrev block 0
    let h := h.setNext block 0
    (insertBlock block h).map fun h =>
      if h.prev block ≠ 0 then
        let h := coalesceWithNext (h.prev block) h
        -- the block goes back by one whether or not it was merged
        (h.prev block, coalesceWithNext (h.prev block) h)
      else (block, coalesceWithNext block h)

/-! ## The two calls -/

/-- `mymalloc`: the first free block that is large enough, or one that extends the heap, is cut and
    taken.  The pointer returned and the heap. -/
def mymalloc (size : Nat) (vmalloc : Nat → Nat) (h : Heap) : Option (Nat × Heap) :=
  let size := requestSize size
  let h := { h with mallocCount := h.mallocCount + 1 }
  (findFreeBlock size h).bind fun found =>
    (if found = 0 then extendHeap size vmalloc h else some (found, h)).map fun (block, h) =>
      if block = 0 then (0, h)
      else
        let h := splitBlock block size h
        let h := h.setFree block false
        (wadd block sizeofBlock, h)

/-- `myfree`. -/
def myfree (ptr : Nat) (h : Heap) : Heap :=
  if ptr = 0 then h
  else
    let block := wsub ptr sizeofBlock
    let h := h.setFree block true
    let h := coalesceWithNext block h
    if h.prev block ≠ 0 then coalesceWithNext (h.prev block) h else h

end Malloc
