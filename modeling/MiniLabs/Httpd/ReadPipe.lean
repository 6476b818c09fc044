/-
  httpd — `read_pipe_all`: the output of a CGI, however the pipe cuts it up.

  1. **Program** — `readPipeAll heap results`: a first block of 4096 bytes, then the loop, which
     doubles the block where fewer than 1024 bytes and the NUL would fit, reads into the rest of
     it and goes on until `read` brings nothing.  A `Run` keeps the sizes asked for and every
     state of the loop beside the outcome.

  2. **Specification** — `Correct`: every read asks for at least 1024 bytes, `len + 1 <= cap` in
     every state, and the outcome is the concatenation of the chunks with its length and a NUL
     behind it.

  3. **The crux (`Filled`)** — the first `len` bytes are the data so far, there is room for one
     more, and the size is 4096 doubled some number of times.  Doubling is enough because the block
     has at least 4096 bytes (`Filled.grow`): then a read asks for at least 1024, and what it
     brings fits (`Filled.take`).

  4. **Allocation** — `malloc` and `realloc` are answers of a `Heap`, which gives out no block of
     more than `PTRDIFF_MAX` bytes.  `Heap.Grants` says which blocks have to be there for the
     output: with them memory never runs out (`readPipeAll_memory`), whatever `read` does.

  A block is a list of bytes, and a write that leaves it gives `outside`.
-/
import Mathlib.Algebra.Order.Ring.Int
import Mathlib.Tactic.Common
import MiniLabs.Httpd.Strings

set_option linter.unusedVariables false

namespace Httpd

/-- `PTRDIFF_MAX`, the size above which no block is given out. -/
def ptrdiffMax : Nat := 2 ^ 63 - 1

/-- `malloc`: a new block, if there is one of this size; its bytes may be any. -/
structure Heap where
  alloc : UInt64 → Option Bytes
  length : ∀ n block, alloc n = some block → block.length = n.toNat
  limit : ∀ n block, alloc n = some block → n.toNat ≤ ptrdiffMax

/-- What a call of `read` does: it brings bytes (none at the end of the file), it is interrupted,
    or it fails. -/
inductive ReadResult
  | data (bytes : Bytes)
  | interrupted
  | failed
  deriving DecidableEq, Repr

/-- The bytes that a call of `read` brings. -/
def ReadResult.bytes : ReadResult → Bytes
  | .data bytes => bytes
  | .interrupted => []
  | .failed => []

/-- The variables of `read_pipe_all`; `mem` is the block at `buf`. -/
structure PipeBuffer where
  mem : Bytes
  cap : UInt64
  len : UInt64
  deriving DecidableEq, Repr

/-- How `read_pipe_all` ends. -/
inductive Outcome
  /-- It returns the block, and `*out_len`. -/
  | returned (mem : Bytes) (len : UInt64)
  /-- NULL, for want of memory. -/
  | noMemory
  /-- NULL, because `read` has failed. -/
  | failed
  /-- A byte has been written outside the block. -/
  | outside
  /-- `read` waits. -/
  | waiting
  deriving DecidableEq, Repr

/-- A run: the sizes asked for, every state of the loop, and the outcome. -/
structure Run where
  asked : List UInt64
  states : List PipeBuffer
  outcome : Outcome

/-- Bytes are written into a block. -/
def store (mem : Bytes) (pos : Nat) (bytes : Bytes) : Option Bytes :=
  if pos + bytes.length ≤ mem.length then
    some (mem.take pos ++ bytes ++ mem.drop (pos + bytes.length))
  else none

namespace PipeBuffer

/-- `realloc(buf, cap)` with twice the size, where there is too little room. -/
def grow (heap : Heap) (b : PipeBuffer) : Option PipeBuffer :=
  if b.len + 1024 + 1 > b.cap then
    let cap := b.cap * 2
    (heap.alloc cap).map fun block =>
      { b with
        mem := b.mem.take cap.toNat ++ block.drop b.mem.length
        cap := cap }
  else some b

/-- The size that `read` is asked for. -/
def room (b : PipeBuffer) : UInt64 := b.cap - b.len - 1

/-- `read` has brought bytes; `none` where they leave the block. -/
def take (b : PipeBuffer) (bytes : Bytes) : Option PipeBuffer :=
  (store b.mem b.len.toNat bytes).map fun mem =>
    { b with
      mem := mem
      len := b.len + UInt64.ofNat bytes.length }

/-- `buf[len] = '\0'`, and the return. -/
def finish (b : PipeBuffer) : Outcome :=
  match store b.mem b.len.toNat [0] with
  | none => .outside
  | some mem => .returned mem b.len

end PipeBuffer

/-- A turn, from `b` to the read in `b'`, in front of the rest of a run. -/
def Run.after (b b' : PipeBuffer) (run : Run) : Run :=
  ⟨b'.room :: run.asked, b :: b' :: run.states, run.outcome⟩

/-- The loop; the list is what the calls of `read` do. -/
def readLoop (heap : Heap) : List ReadResult → PipeBuffer → Run
  | [], b => (b.grow heap).elim ⟨[], [b], .noMemory⟩ fun b' => Run.after b b' ⟨[], [], .waiting⟩
  | r :: results, b =>
    (b.grow heap).elim ⟨[], [b], .noMemory⟩ fun b' =>
      Run.after b b' <|
        match r with
        | .failed => ⟨[], [], .failed⟩
        | .interrupted => readLoop heap results b'
        | .data bytes =>
          if bytes.length = 0 then ⟨[], [], b'.finish⟩
          else (b'.take bytes).elim ⟨[], [], .outside⟩ (readLoop heap results)

/-- `read_pipe_all`. -/
def readPipeAll (heap : Heap) (results : List ReadResult) : Run :=
  match heap.alloc 4096 with
  | none => ⟨[], [], .noMemory⟩
  | some block => readLoop heap results ⟨block, 4096, 0⟩

/-! ## The invariant -/

/-- The block is **filled** with the data, and has room for one byte more. -/
structure Filled (b : PipeBuffer) (data : Bytes) : Prop where
  block : b.mem.length = b.cap.toNat
  len : b.len.toNat = data.length
  data : data <+: b.mem
  room : b.len.toNat + 1 ≤ b.cap.toNat
  doubled : ∃ k, b.cap.toNat = 4096 * 2 ^ k
  limit : b.cap.toNat ≤ ptrdiffMax

/-- The first block is filled with nothing. -/
theorem Filled.start {heap : Heap} {block : Bytes} (h : heap.alloc 4096 = some block) :
    Filled ⟨block, 4096, 0⟩ [] where
  block := heap.length _ _ h
  len := rfl
  data := List.nil_prefix
  room := Nat.le_add_left 1 4095
  doubled := ⟨0, rfl⟩
  limit := heap.limit _ _ h

/-- The block never gets smaller. -/
theorem Filled.least {b : PipeBuffer} {data : Bytes} (h : Filled b data) : 4096 ≤ b.cap.toNat := by
  obtain ⟨k, hk⟩ := h.doubled
  rw [hk]
  exact Nat.le_mul_of_pos_right 4096 (Nat.two_pow_pos k)

/-- What may be read is what is left, without the NUL. -/
theorem Filled.room_eq {b : PipeBuffer} {data : Bytes} (h : Filled b data) :
    b.room.toNat = b.cap.toNat - b.len.toNat - 1 := by
  have hroom := h.room
  have hlimit := h.limit
  have hone : (1 : UInt64).toNat = 1 := rfl
  simp only [PipeBuffer.room, UInt64.toNat_sub, hone, ptrdiffMax] at *
  omega

/-- Twice the size is still a number of 64 bits. -/
theorem Filled.twice {b : PipeBuffer} {data : Bytes} (h : Filled b data) :
    (b.cap * 2).toNat = 2 * b.cap.toNat := by
  have hlimit := h.limit
  have htwo : (2 : UInt64).toNat = 2 := rfl
  simp only [UInt64.toNat_mul, htwo, ptrdiffMax] at *
  omega

/-- `len + 1024 + 1` is, too. -/
theorem Filled.need {b : PipeBuffer} {data : Bytes} (h : Filled b data) :
    (b.len + 1024 + 1).toNat = b.len.toNat + 1025 := by
  have hroom := h.room
  have hlimit := h.limit
  have hone : (1 : UInt64).toNat = 1 := rfl
  have hmin : (1024 : UInt64).toNat = 1024 := rfl
  simp only [UInt64.toNat_add, hone, hmin, ptrdiffMax] at *
  omega

/-- **Doubling makes room for 1024 bytes**, and the byte behind them. -/
theorem Filled.grow {heap : Heap} {b b' : PipeBuffer} {data : Bytes} (h : Filled b data)
    (hgrow : b.grow heap = some b') : Filled b' data ∧ 1024 ≤ b'.room.toNat := by
  have hroom := h.room
  have hleast := h.least
  have hlimit := h.limit
  have hneed := h.need
  rw [PipeBuffer.grow] at hgrow
  by_cases hsmall : b.len + 1024 + 1 > b.cap
  · rw [if_pos hsmall] at hgrow
    have hsmall := UInt64.lt_iff_toNat_lt.mp hsmall
    obtain ⟨block, halloc, rfl⟩ := Option.map_eq_some_iff.mp hgrow
    have hlength := heap.length _ _ halloc
    have hbound := heap.limit _ _ halloc
    have hcap := h.twice
    have htake : b.mem.take (b.cap * 2).toNat = b.mem := by
      apply List.take_of_length_le
      have := h.block
      omega
    have hfilled : Filled { b with
        mem := b.mem.take (b.cap * 2).toNat ++ block.drop b.mem.length
        cap := b.cap * 2 } data := by
      refine ⟨?_, h.len, ?_, ?_, ?_, hbound⟩
      · rw [htake, List.length_append, List.length_drop]
        have hblock := h.block
        show b.mem.length + (block.length - b.mem.length) = (b.cap * 2).toNat
        omega
      · rw [htake]
        exact h.data.trans (List.prefix_append _ _)
      · show b.len.toNat + 1 ≤ (b.cap * 2).toNat
        omega
      · obtain ⟨k, hk⟩ := h.doubled
        exact ⟨k + 1, by rw [hcap, hk, pow_succ']; omega⟩
    refine ⟨hfilled, ?_⟩
    rw [hfilled.room_eq]
    show 1024 ≤ (b.cap * 2).toNat - b.len.toNat - 1
    omega
  · rw [if_neg hsmall] at hgrow
    cases hgrow
    have hlarge := mt UInt64.lt_iff_toNat_lt.mpr hsmall
    refine ⟨h, ?_⟩
    rw [h.room_eq]
    omega

/-- A chunk is stored behind what was there. -/
theorem store_prefix {mem data : Bytes} (bytes : Bytes) (hdata : data <+: mem)
    (hfit : data.length + bytes.length ≤ mem.length) :
    ∃ mem', store mem data.length bytes = some mem' ∧ mem'.length = mem.length ∧
      data ++ bytes <+: mem' := by
  refine ⟨_, if_pos hfit, ?_, ?_⟩
  · simp only [List.length_append, List.length_take, List.length_drop]
    omega
  · rw [← List.prefix_iff_eq_take.mp hdata]
    exact List.prefix_append _ _

/-- What a read brings fits. -/
theorem Filled.take {b : PipeBuffer} {data : Bytes} (h : Filled b data) (bytes : Bytes)
    (hbytes : bytes.length ≤ b.room.toNat) :
    ∃ b', b.take bytes = some b' ∧ Filled b' (data ++ bytes) := by
  have hroom := h.room
  have hblock := h.block
  have hlen := h.len
  have hlimit := h.limit
  rw [h.room_eq] at hbytes
  obtain ⟨mem, hstore, hmem, hprefix⟩ := store_prefix bytes h.data (by omega)
  have hcount : (b.len + UInt64.ofNat bytes.length).toNat = (data ++ bytes).length := by
    rw [List.length_append, UInt64.toNat_add, UInt64.toNat_ofNat']
    simp only [ptrdiffMax] at hlimit
    omega
  refine ⟨{ b with mem := mem, len := b.len + UInt64.ofNat bytes.length }, ?_, ?_, hcount, hprefix,
    ?_, h.doubled, hlimit⟩
  · rw [PipeBuffer.take, hlen, hstore]
    rfl
  · exact hmem.trans hblock
  · rw [hcount, List.length_append]
    dsimp only
    omega

/-- The NUL fits. -/
theorem Filled.finish {b : PipeBuffer} {data : Bytes} (h : Filled b data) :
    ∃ mem, b.finish = .returned mem b.len ∧ data ++ [0] <+: mem := by
  have hroom := h.room
  have hblock := h.block
  have hlen := h.len
  obtain ⟨mem, hstore, -, hprefix⟩ := store_prefix [0] h.data (by
    rw [List.length_singleton]
    omega)
  refine ⟨mem, ?_, hprefix⟩
  rw [PipeBuffer.finish, hlen, hstore]

/-! ## Allocation -/

/-- The heap **grants** the buffer for `n` bytes: its first block, and twice every size that is
    too small for them. -/
structure Heap.Grants (heap : Heap) (n : Nat) : Prop where
  first : (heap.alloc 4096).isSome
  doubled : ∀ k, 4096 * 2 ^ k < n + 1025 →
    (heap.alloc (UInt64.ofNat (4096 * 2 ^ (k + 1)))).isSome

/-- The block can grow as long as no more than `n` bytes are in it. -/
theorem Filled.grows {heap : Heap} {n : Nat} {b : PipeBuffer} {data : Bytes} (h : Filled b data)
    (hheap : heap.Grants n) (hn : data.length ≤ n) : ∃ b', b.grow heap = some b' := by
  rw [PipeBuffer.grow]
  by_cases hsmall : b.len + 1024 + 1 > b.cap
  · obtain ⟨k, hk⟩ := h.doubled
    have hneed := UInt64.lt_iff_toNat_lt.mp hsmall
    rw [h.need, h.len] at hneed
    have hcap : b.cap * 2 = UInt64.ofNat (4096 * 2 ^ (k + 1)) := by
      rw [← UInt64.ofNat_toNat (x := b.cap * 2), h.twice, hk, pow_succ']
      congr 1
      omega
    obtain ⟨block, halloc⟩ := Option.isSome_iff_exists.mp (hheap.doubled k (by omega))
    rw [if_pos hsmall, hcap]
    dsimp only
    rw [halloc]
    exact ⟨_, rfl⟩
  · rw [if_neg hsmall]
    exact ⟨b, rfl⟩

/-! ## The run -/

/-- No call of `read` brings more than it was asked for. -/
def Granted : List UInt64 → List ReadResult → Prop
  | n :: asked, r :: results => r.bytes.length ≤ n.toNat ∧ Granted asked results
  | _, _ => True

/-- What `read` does before the end of the file: it brings some bytes, or is interrupted. -/
def ReadResult.Goes (r : ReadResult) : Prop := r = .interrupted ∨ r.bytes ≠ []

/-- **Correct** runs for the data: every read asks for at least 1024 bytes, every state has room
    for one byte behind the data read so far, and at the end the data and a NUL are returned. -/
structure Correct (run : Run) (data : Bytes) : Prop where
  asked : ∀ n ∈ run.asked, 1024 ≤ n.toNat
  states : ∀ b ∈ run.states, b.len.toNat + 1 ≤ b.cap.toNat ∧ b.mem.length = b.cap.toNat
  outcome : ∃ mem len, run.outcome = .returned mem len ∧ len.toNat = data.length ∧
    data ++ [0] <+: mem

/-- A run that goes on correctly is correct. -/
theorem Correct.after {b b' : PipeBuffer} {before data : Bytes} {run : Run} (h : Correct run data)
    (hb : Filled b before) (hb' : Filled b' before) (hroom : 1024 ≤ b'.room.toNat) :
    Correct (Run.after b b' run) data := by
  refine ⟨fun n hn => ?_, fun s hs => ?_, h.outcome⟩
  · rcases List.mem_cons.mp hn with rfl | hn
    · exact hroom
    · exact h.asked n hn
  · rcases List.mem_cons.mp hs with rfl | hs
    · exact ⟨hb.room, hb.block⟩
    · rcases List.mem_cons.mp hs with rfl | hs
      · exact ⟨hb'.room, hb'.block⟩
      · exact h.states s hs

/-- The run ends with the NUL behind the data. -/
theorem Correct.finish {b : PipeBuffer} {data : Bytes} (hb : Filled b data) :
    Correct ⟨[], [], b.finish⟩ data where
  asked := fun n hn => absurd hn List.not_mem_nil
  states := fun s hs => absurd hs List.not_mem_nil
  outcome :=
    have ⟨mem, hfinish, hmem⟩ := hb.finish
    ⟨mem, b.len, hfinish, hb.len, hmem⟩

/-- **Every run of the loop is correct**, for what it has and what `read` still brings. -/
theorem readLoop_correct {heap : Heap} {turns : List ReadResult} (hturns : ∀ r ∈ turns, r.Goes)
    {b : PipeBuffer} {data : Bytes} (hb : Filled b data)
    (hheap : heap.Grants (data ++ turns.flatMap ReadResult.bytes).length)
    (hgranted : Granted (readLoop heap (turns ++ [.data []]) b).asked (turns ++ [.data []])) :
    Correct (readLoop heap (turns ++ [.data []]) b) (data ++ turns.flatMap ReadResult.bytes) := by
  induction turns generalizing b data with
  | nil =>
    rw [List.flatMap_nil, List.append_nil] at hheap ⊢
    obtain ⟨b', hgrow⟩ := hb.grows hheap (Nat.le_refl _)
    obtain ⟨hb', hroom⟩ := hb.grow hgrow
    rw [List.nil_append, readLoop, hgrow]
    exact Correct.after (Correct.finish hb') hb hb' hroom
  | cons r turns ih =>
    obtain ⟨b', hgrow⟩ := hb.grows hheap (by
      rw [List.length_append]
      exact Nat.le_add_right _ _)
    obtain ⟨hb', hroom⟩ := hb.grow hgrow
    have hrest : ∀ r ∈ turns, r.Goes := fun r hr => hturns r (List.mem_cons_of_mem _ hr)
    rw [List.cons_append, readLoop, hgrow] at hgranted ⊢
    refine Correct.after ?_ hb hb' hroom
    obtain ⟨hsize, hgranted⟩ := hgranted
    cases r with
    | interrupted => exact ih hrest hb' hheap hgranted
    | failed =>
      rcases hturns _ (List.mem_cons_self ..) with h | h
      · cases h
      · exact absurd rfl h
    | data bytes =>
      have hne : bytes.length ≠ 0 := fun hlen => by
        rcases hturns _ (List.mem_cons_self ..) with h | h
        · cases h
        · exact h (List.eq_nil_of_length_eq_zero hlen)
      obtain ⟨b'', htake, hb''⟩ := hb'.take bytes hsize
      dsimp only at hgranted ⊢
      rw [if_neg hne, htake] at hgranted ⊢
      rw [List.flatMap_cons, ← List.append_assoc] at hheap ⊢
      exact ih hrest hb'' hheap hgranted

/-- **`read_pipe_all` does not depend on the chunks**: however the bytes come, and however often a
    read is interrupted, it returns their concatenation and its length, if the heap grants the
    buffer for them. -/
theorem readPipeAll_chunks (heap : Heap) {turns : List ReadResult} (hturns : ∀ r ∈ turns, r.Goes)
    (hheap : heap.Grants (turns.flatMap ReadResult.bytes).length)
    (hgranted : Granted (readPipeAll heap (turns ++ [.data []])).asked (turns ++ [.data []])) :
    Correct (readPipeAll heap (turns ++ [.data []])) (turns.flatMap ReadResult.bytes) := by
  obtain ⟨block, halloc⟩ := Option.isSome_iff_exists.mp hheap.first
  rw [readPipeAll, halloc] at hgranted ⊢
  exact readLoop_correct hturns (Filled.start halloc) hheap hgranted

/-- While the heap grants the buffer, the loop does not run out of memory, whatever `read` does. -/
theorem readLoop_memory {heap : Heap} {results : List ReadResult} {b : PipeBuffer} {data : Bytes}
    (hb : Filled b data) (hheap : heap.Grants (data ++ results.flatMap ReadResult.bytes).length)
    (hgranted : Granted (readLoop heap results b).asked results) :
    (readLoop heap results b).outcome ≠ .noMemory := by
  induction results generalizing b data with
  | nil =>
    obtain ⟨b', hgrow⟩ := hb.grows hheap (by
      rw [List.length_append]
      exact Nat.le_add_right _ _)
    rw [readLoop, hgrow]
    exact Outcome.noConfusion
  | cons r results ih =>
    obtain ⟨b', hgrow⟩ := hb.grows hheap (by
      rw [List.length_append]
      exact Nat.le_add_right _ _)
    obtain ⟨hb', -⟩ := hb.grow hgrow
    rw [readLoop, hgrow] at hgranted ⊢
    obtain ⟨hsize, hgranted⟩ := hgranted
    cases r with
    | failed => exact Outcome.noConfusion
    | interrupted => exact ih hb' hheap hgranted
    | data bytes =>
      obtain ⟨b'', htake, hb''⟩ := hb'.take bytes hsize
      rw [List.flatMap_cons, ← List.append_assoc] at hheap
      dsimp only [Option.elim_some, Run.after] at hgranted ⊢
      rw [htake] at hgranted ⊢
      by_cases hend : bytes.length = 0
      · rw [if_pos hend]
        obtain ⟨mem, hfinish, -⟩ := hb'.finish
        dsimp only
        rw [hfinish]
        exact Outcome.noConfusion
      · rw [if_neg hend] at hgranted ⊢
        exact ih hb'' hheap hgranted

/-- **Memory never runs out** while the heap grants the buffer. -/
theorem readPipeAll_memory {heap : Heap} {results : List ReadResult}
    (hheap : heap.Grants (results.flatMap ReadResult.bytes).length)
    (hgranted : Granted (readPipeAll heap results).asked results) :
    (readPipeAll heap results).outcome ≠ .noMemory := by
  obtain ⟨block, halloc⟩ := Option.isSome_iff_exists.mp hheap.first
  rw [readPipeAll, halloc] at hgranted ⊢
  exact readLoop_memory (Filled.start halloc) hheap hgranted

/-- Chunks of up to 1024 bytes are never more than was asked for. -/
theorem granted_small {heap : Heap} {results : List ReadResult}
    (hsmall : ∀ r ∈ results, r.bytes.length ≤ 1024) {b : PipeBuffer} {data : Bytes}
    (hb : Filled b data) : Granted (readLoop heap results b).asked results := by
  induction results generalizing b data with
  | nil =>
    rw [readLoop]
    cases b.grow heap <;> trivial
  | cons r results ih =>
    rw [readLoop]
    cases hgrow : b.grow heap with
    | none => trivial
    | some b' =>
      obtain ⟨hb', hroom⟩ := hb.grow hgrow
      have hsize : r.bytes.length ≤ b'.room.toNat :=
        Nat.le_trans (hsmall r (List.mem_cons_self ..)) hroom
      have hrest : ∀ r ∈ results, r.bytes.length ≤ 1024 := fun r hr =>
        hsmall r (List.mem_cons_of_mem _ hr)
      refine ⟨hsize, ?_⟩
      cases r with
      | failed => trivial
      | interrupted => exact ih hrest hb'
      | data bytes =>
        dsimp only
        split
        · trivial
        · obtain ⟨b'', htake, hb''⟩ := hb'.take bytes hsize
          rw [htake]
          exact ih hrest hb''

/-- A heap of blocks of up to 8192 bytes. -/
def smallHeap : Heap where
  alloc n := if n.toNat ≤ 8192 then some (List.replicate n.toNat 0) else none
  length := fun n block h => by
    rw [← Option.some.inj (Option.ite_none_right_eq_some.mp h).2, List.length_replicate]
  limit := fun n block h =>
    Nat.le_trans (Option.ite_none_right_eq_some.mp h).1 (by decide)

/-- A heap that is enough for small outputs. -/
theorem smallHeap_grants {n : Nat} (hn : n < 3072) : smallHeap.Grants n where
  first := rfl
  doubled := by
    intro k hk
    have hzero : k = 0 := by
      by_contra hne
      have := Nat.pow_le_pow_right (n := 2) (by decide) (Nat.pos_of_ne_zero hne)
      omega
    subst hzero
    rfl

/-- Two chunks with an interruption between them. -/
theorem readPipeAll_two :
    Correct (readPipeAll smallHeap [.data [1, 2], .interrupted, .data [3], .data []]) [1, 2, 3] := by
  have hturns : ∀ r ∈ [.data [1, 2], .interrupted, .data [3]], ReadResult.Goes r := by
    simp [ReadResult.Goes, ReadResult.bytes]
  have halloc : smallHeap.alloc 4096 = some (List.replicate 4096 0) := rfl
  exact readPipeAll_chunks smallHeap hturns (smallHeap_grants (by decide))
    (granted_small (by simp [ReadResult.bytes]) (Filled.start halloc))

end Httpd
