import Mathlib.Data.List.Basic

/-! `_ResponseStream` of `aws/client.py`, which reads a response's chunks as one stream
of bytes. An empty chunk that is not the last one is taken for the end of the stream. -/

namespace LocalStack.Aws.Client

abbrev Bytes := List UInt8

/-- What the iterator still yields, and the rest of the chunk it has yielded last. -/
structure _ResponseStream where
  iterator : List Bytes
  _buf : Option Bytes
  deriving DecidableEq

namespace _ResponseStream

def new (chunks : List Bytes) : _ResponseStream := ⟨chunks, none⟩

/-- `self._buf or next(self.iterator)`, with the iterator behind it. -/
def nextChunk (s : _ResponseStream) : Option (Bytes × List Bytes) :=
  match s._buf, s.iterator with
  | some (b :: bs), iterator => some (b :: bs, iterator)
  | _, chunk :: iterator => some (chunk, iterator)
  | _, [] => none

/-- `readinto` a buffer of `upto` bytes: the bytes that are written to it. For a positive
number of bytes, `read` makes such a buffer and returns these bytes. -/
def readinto (s : _ResponseStream) (upto : Nat) : Bytes × _ResponseStream :=
  match s.nextChunk with
  | some (chunk, iterator) => (chunk.take upto, ⟨iterator, some (chunk.drop upto)⟩)
  | none => ([], s)

/-- All bytes read up to the first call that reports the end of the file, which is an
empty result for a buffer that is not empty; `none` where no call does. -/
def untilEnd : List Nat → _ResponseStream → Option (Bytes × _ResponseStream)
  | [], _ => none
  | upto :: calls, s =>
    let (output, s') := s.readinto upto
    if 1 ≤ upto ∧ output = [] then some ([], s')
    else (untilEnd calls s').map fun r => (output ++ r.1, r.2)

/-- The bytes that have not been returned. -/
def remaining (s : _ResponseStream) : Bytes := s._buf.getD [] ++ s.iterator.flatten

/-- Every chunk has been consumed. -/
def Exhausted (s : _ResponseStream) : Prop := s.iterator = [] ∧ s._buf.getD [] = []

end _ResponseStream

open _ResponseStream

/-- Whatever calls are made, the end of the file is reported only when every chunk has
been consumed, and then exactly the bytes of the chunks have been returned. -/
def StreamsCompletely (chunks : List Bytes) : Prop :=
  ∀ calls bytes s, untilEnd calls (new chunks) = some (bytes, s) →
    bytes = chunks.flatten ∧ s.Exhausted

variable {s s' : _ResponseStream} {upto : Nat} {calls : List Nat} {bytes output : Bytes}

/-! ## One call -/

/-- No byte is lost or repeated by a call. -/
theorem readinto_remaining (s : _ResponseStream) (upto : Nat) :
    (s.readinto upto).1 ++ (s.readinto upto).2.remaining = s.remaining := by
  obtain ⟨iterator, buf⟩ := s
  rcases buf with _ | _ | ⟨b, bs⟩
  all_goals
    rcases iterator with _ | ⟨chunk, iterator⟩
    all_goals
      simp only [readinto, nextChunk, remaining, Option.getD_some, Option.getD_none]
      simp [← List.append_assoc, List.take_append_drop]

/-- A call returns nothing at the end, or for an empty chunk. -/
theorem readinto_empty (hupto : 1 ≤ upto) (h : (s.readinto upto).1 = []) :
    s.Exhausted ∧ (s.readinto upto).2 = s ∨
      s._buf.getD [] = [] ∧ ∃ iterator, s.iterator = [] :: iterator ∧
        (s.readinto upto).2 = ⟨iterator, some []⟩ := by
  obtain ⟨iterator, buf⟩ := s
  have htake : ∀ chunk : Bytes, chunk.take upto = [] → chunk = [] := by
    intro chunk hc
    rcases List.take_eq_nil_iff.mp hc with rfl | hc
    · omega
    · exact hc
  rcases buf with _ | _ | ⟨b, bs⟩
  · rcases iterator with _ | ⟨chunk, iterator⟩
    · exact .inl ⟨⟨rfl, rfl⟩, rfl⟩
    · obtain rfl := htake chunk h
      exact .inr ⟨rfl, iterator, rfl, by simp [readinto, nextChunk]⟩
  · rcases iterator with _ | ⟨chunk, iterator⟩
    · exact .inl ⟨⟨rfl, rfl⟩, rfl⟩
    · obtain rfl := htake chunk h
      exact .inr ⟨rfl, iterator, rfl, by simp [readinto, nextChunk]⟩
  · exact absurd (htake _ h) (List.cons_ne_nil b bs)

/-- A call leaves the iterator or takes its first chunk. -/
theorem readinto_iterator (s : _ResponseStream) (upto : Nat) :
    (s.readinto upto).2.iterator = s.iterator ∨
      (s.readinto upto).2.iterator = s.iterator.tail := by
  obtain ⟨iterator, buf⟩ := s
  rcases buf with _ | _ | ⟨b, bs⟩
  · rcases iterator with _ | ⟨chunk, iterator⟩
    · exact .inl rfl
    · exact .inr rfl
  · rcases iterator with _ | ⟨chunk, iterator⟩
    · exact .inl rfl
    · exact .inr rfl
  · exact .inl rfl

theorem readinto_whole {chunk : Bytes} {iterator : List Bytes} {buf : Option Bytes}
    (hbuf : buf.getD [] = []) : readinto ⟨chunk :: iterator, buf⟩ chunk.length =
      (chunk, ⟨iterator, some []⟩) := by
  rcases buf with _ | _ | ⟨b, bs⟩
  · simp [readinto, nextChunk]
  · simp [readinto, nextChunk]
  · simp at hbuf

/-! ## All calls -/

/-- Only the last chunk may be empty. -/
def OnlyLastEmpty (chunks : List Bytes) : Prop := ∀ chunk ∈ chunks.dropLast, chunk ≠ []

theorem OnlyLastEmpty.tail {chunks : List Bytes} (h : OnlyLastEmpty chunks) :
    OnlyLastEmpty chunks.tail := by
  cases chunks with
  | nil => exact h
  | cons chunk chunks =>
    intro c hc
    refine h c ?_
    cases chunks with
    | nil => simp at hc
    | cons d chunks => exact List.mem_cons_of_mem _ hc

theorem untilEnd_complete (hlast : OnlyLastEmpty s.iterator)
    (h : untilEnd calls s = some (bytes, s')) : bytes = s.remaining ∧ s'.Exhausted := by
  induction calls generalizing s bytes with
  | nil => simp [untilEnd] at h
  | cons upto calls ih =>
    simp only [untilEnd] at h
    split at h
    · rename_i hend
      obtain ⟨rfl, rfl⟩ := Prod.mk.inj (Option.some.inj h)
      rcases readinto_empty hend.1 hend.2 with ⟨hs, heq⟩ | ⟨hbuf, iterator, hit, heq⟩
      · rw [heq]
        exact ⟨by rw [remaining, hs.1, hs.2]; rfl, hs⟩
      · have hnil : iterator = [] := by
          by_contra hne
          rw [hit] at hlast
          exact hlast [] (by rw [List.dropLast_cons_of_ne_nil hne]; simp) rfl
        rw [heq, hnil]
        exact ⟨by rw [remaining, hbuf, hit, hnil]; rfl, rfl, rfl⟩
    · obtain ⟨r, hr, hrest⟩ := Option.map_eq_some_iff.mp h
      obtain ⟨rfl, rfl⟩ := Prod.mk.inj hrest
      have hnext : OnlyLastEmpty (s.readinto upto).2.iterator := by
        rcases readinto_iterator s upto with heq | heq
        · rwa [heq]
        · rw [heq]
          exact hlast.tail
      obtain ⟨hbytes, hexhausted⟩ := ih hnext hr
      exact ⟨by rw [hbytes, readinto_remaining], hexhausted⟩

/-- Calls that take one chunk each stop at the first empty one. -/
theorem untilEnd_empty_chunk {pre rest : List Bytes} {buf : Option Bytes}
    (hpre : [] ∉ pre) (hbuf : buf.getD [] = []) :
    untilEnd (pre.map List.length ++ [1]) ⟨pre ++ [] :: rest, buf⟩ =
      some (pre.flatten, ⟨rest, some []⟩) := by
  induction pre generalizing buf with
  | nil =>
    rcases buf with _ | _ | ⟨b, bs⟩
    · simp [untilEnd, readinto, nextChunk]
    · simp [untilEnd, readinto, nextChunk]
    · simp at hbuf
  | cons chunk pre ih =>
    obtain ⟨hne, hrest⟩ := not_or.mp (fun h => hpre (List.mem_cons.mpr h))
    have hcall : ¬ (1 ≤ chunk.length ∧ chunk = []) := fun h => hne h.2.symm
    have hnext := @ih (some []) hrest rfl
    simp only [List.map_cons, List.cons_append, untilEnd, readinto_whole hbuf, if_neg hcall, hnext,
      Option.map_some, List.flatten_cons]

/-- Calls for at least one byte reach the end of the file. -/
theorem untilEnd_isSome (hcalls : ∀ upto ∈ calls, 1 ≤ upto)
    (hlen : s.remaining.length < calls.length) : (untilEnd calls s).isSome := by
  induction calls generalizing s with
  | nil => simp at hlen
  | cons upto calls ih =>
    simp only [untilEnd]
    split
    · rfl
    · rename_i hend
      have hpos : 0 < (s.readinto upto).1.length :=
        List.length_pos_iff.mpr fun h => hend ⟨hcalls upto (by simp), h⟩
      have hsum := congrArg List.length (readinto_remaining s upto)
      rw [List.length_append] at hsum
      rw [List.length_cons] at hlen
      rw [Option.isSome_map]
      exact ih (fun n hn => hcalls n (List.mem_cons_of_mem _ hn)) (by omega)

/-- **A response is streamed completely exactly when only its last chunk may be
empty.** -/
theorem streamsCompletely_iff (chunks : List Bytes) :
    StreamsCompletely chunks ↔ OnlyLastEmpty chunks := by
  constructor
  · intro h
    by_contra hlast
    obtain ⟨chunk, hmem, rfl⟩ : ∃ chunk ∈ chunks.dropLast, chunk = [] := by
      simpa [OnlyLastEmpty] using hlast
    obtain ⟨pre, rest, rfl, hpre⟩ := List.eq_append_cons_of_mem (List.dropLast_subset _ hmem)
    obtain ⟨-, hit, -⟩ := h _ _ _ (untilEnd_empty_chunk hpre rfl)
    subst hit
    rw [List.dropLast_concat] at hmem
    exact hpre hmem
  · intro hlast calls bytes s h
    simpa [remaining, new] using untilEnd_complete (s := new chunks) hlast h

theorem empty_chunk_not_streamed : ¬ StreamsCompletely [[1], [], [2]] := by
  intro h
  obtain ⟨hbytes, -⟩ := h [5, 5] [1] ⟨[[2]], some []⟩ (by decide)
  exact absurd hbytes (by decide)

end LocalStack.Aws.Client
