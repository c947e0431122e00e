import LocalStack.Lib.HexText
import LocalStack.Lib.IntText

/-! Chunked transfer coding of `utils/http.py`. -/

namespace LocalStack.Utils.ChunkedData
open LocalStack.HexText LocalStack.IntText LocalStack.Regex LocalStack.Regex.Pattern LocalStack.Text

/-! ## The parser -/

def CRLF : Str := ['\r', '\n']

/-- `[0-9a-zA-Z]`. -/
def alnum (c : Char) : Bool := asciiDigit c || ('a' ≤ c ∧ c ≤ 'z') || ('A' ≤ c ∧ c ≤ 'Z')

/-- `^([0-9a-zA-Z]+)\r\n.*`. -/
def header : Pattern :=
  .seq (.group 1 (.chars alnum 1 none)) (.seq (.lit CRLF) (.chars dot 0 none))

/-- `ValueError` of `int`. -/
inductive ValueError
  | invalid_literal (digits : Str)
  deriving DecidableEq, Repr

/-- `int(digits, 16)` for letters and digits in lower case. -/
def int16 (digits : Str) : Except ValueError Nat :=
  match hexNumber (if "0x".toList.isPrefixOf digits then digits.drop 2 else digits) with
  | some n => .ok n
  | none => .error (.invalid_literal digits)

/-- `s.partition(t)[2]`. -/
def partitionAfter (t : Str) : Str → Str
  | [] => []
  | c :: s => if t.isPrefixOf (c :: s) then (c :: s).drop t.length else partitionAfter t s

/-- The loop of `parse_chunked_data`; `none` when the fuel does not suffice. -/
def parse_loop : Nat → Str → List Str → Option (Except ValueError Str)
  | 0, _, _ => none
  | fuel + 1, data, chunks =>
    if data = [] then some (.ok chunks.flatten)
    else match header.match_ data with
      | none => some (.ok chunks.flatten)
      | some length =>
        match int16 (((length.groups.get 1).getD []).map Char.toLower) with
        | .error e => some (.error e)
        | .ok length =>
          let data := partitionAfter CRLF data
          parse_loop fuel (stripSpace (data.drop length)) (chunks ++ [data.take length])

def parse_chunked_data (data : Str) : Option (Except ValueError Str) :=
  let data := stripSpace data
  parse_loop (data.length + 1) data []

/-! ## The writer -/

def create_chunked_data (data : Str) (chunk_size : Nat) : Str :=
  let dl := data.length
  let full := (List.range (dl / chunk_size)).flatMap fun i =>
    (hex chunk_size ++ CRLF) ++
      ((data.take ((i + 1) * chunk_size)).drop (i * chunk_size) ++ CRLF ++ CRLF)
  let last := if dl % chunk_size ≠ 0 then
    (hex (dl % chunk_size) ++ CRLF) ++ (data.drop (dl - dl % chunk_size) ++ CRLF) else []
  full ++ last ++ ('0' :: CRLF ++ CRLF)

/-! ## Termination -/

theorem length_partitionAfter_lt (t : Str) {s : Str} (hs : s ≠ []) (ht : t ≠ []) :
    (partitionAfter t s).length < s.length := by
  induction s with
  | nil => exact absurd rfl hs
  | cons c s ih =>
    rw [partitionAfter]
    split
    · rw [List.length_drop]
      have hlen := List.length_pos_iff.mpr ht
      rw [List.length_cons]
      omega
    · by_cases hs : s = []
      · subst hs
        exact Nat.zero_lt_succ _
      · exact Nat.lt_succ_of_lt (ih hs)

theorem length_stripSpace_le (s : Str) : (stripSpace s).length ≤ s.length := by
  rw [stripSpace]
  exact ((List.rdropWhile_prefix _ _).sublist.trans (List.dropWhile_sublist _)).length_le

/-- Each turn of the loop takes something from the text. -/
theorem exists_parse_loop {fuel : Nat} {data : Str} (h : data.length < fuel) (chunks : List Str) :
    ∃ r, parse_loop fuel data chunks = some r := by
  induction fuel generalizing data chunks with
  | zero => omega
  | succ fuel ih =>
    rw [parse_loop]
    split
    · exact ⟨_, rfl⟩
    · next hdata =>
      split
      · exact ⟨_, rfl⟩
      · split
        · exact ⟨_, rfl⟩
        · refine ih ?_ _
          have hlt := length_partitionAfter_lt CRLF hdata (List.cons_ne_nil _ _)
          have hle := length_stripSpace_le ((partitionAfter CRLF data).drop ‹Nat›)
          rw [List.length_drop] at hle
          omega

/-! ## Rendered chunks -/

/-- A chunk with its size and what is written behind it. -/
structure Piece where
  size : Str
  chunk : Str
  tail : Str
  deriving DecidableEq, Repr

def Piece.text (p : Piece) : Str := (p.size ++ CRLF) ++ (p.chunk ++ p.tail)

/-- The size is that of the chunk, and white space follows. -/
structure Piece.Ok (p : Piece) : Prop where
  size : hexNumber p.size = some p.chunk.length
  tail : ∀ c ∈ p.tail, whitespace c = true

/-- The chunks, and a last one of size zero. -/
def body (ps : List Piece) (zeros : Nat) : Str :=
  ps.flatMap Piece.text ++ List.replicate (zeros + 1) '0'

theorem hexFrom_size {p : Piece} (h : p.Ok) : hexFrom 0 p.size = some p.chunk.length := by
  have hsize := h.size
  rw [hexNumber] at hsize
  split at hsize
  · cases hsize
  · exact hsize

theorem size_ne_nil {p : Piece} (h : p.Ok) : p.size ≠ [] := by
  intro hnil
  have hsize := h.size
  rw [hexNumber, if_pos hnil] at hsize
  cases hsize

theorem alnum_of_hexVal {c : Char} {v : Nat} (h : hexVal c = some v) : alnum c = true := by
  refine @forall_hexVal (fun c => alnum c = true) _ ?_ c v h
  decide

theorem header_match {size rest : Str} (hne : size ≠ []) (halnum : ∀ c ∈ size, alnum c = true) :
    ∃ m, header.match_ (size ++ (CRLF ++ rest)) = some m ∧ m.groups.get 1 = some size := by
  have hend : ∀ c ∈ (CRLF ++ rest).head?, alnum c = false := by
    intro c hc
    obtain rfl : '\r' = c := Option.some.inj hc
    decide
  have hsize := @head?_group (.chars alnum 1 none) (CRLF ++ rest) size [] 1
    (head?_chars halnum (List.length_pos_iff.mpr hne) (by simp) hend)
  have hcrlf : ((lit CRLF).run (CRLF ++ rest) [(1, size)]).head? = some ⟨rest, [(1, size)]⟩ :=
    head?_lit rest
  have hdots : ((chars dot 0 none).run rest [(1, size)]).head? =
      some ⟨rest.dropWhile dot, [(1, size)]⟩ := by
    have hstop : ∀ c ∈ (rest.dropWhile dot).head?, dot c = false := by
      intro c hc
      have hnot := List.head?_dropWhile_not dot rest
      rwa [hc] at hnot
    have htake := @head?_chars dot 0 none (rest.dropWhile dot) (rest.takeWhile dot) [(1, size)]
      (fun c hc => List.mem_takeWhile_imp hc) (Nat.zero_le _) (by simp) hstop
    rwa [List.takeWhile_append_dropWhile] at htake
  exact ⟨_, head?_seq hsize (head?_seq hcrlf hdots), rfl⟩

theorem header_none (zeros : Nat) : header.match_ (List.replicate (zeros + 1) '0') = none := by
  rw [← Option.not_isSome_iff_eq_none, match_isSome]
  rintro ⟨m, hm⟩
  obtain ⟨m₁, hm₁, hm⟩ := mem_run_seq.mp hm
  obtain ⟨m₂, hm₂, -⟩ := mem_run_seq.mp hm
  have hmem : '\r' ∈ m₁.rest := by
    rw [(mem_run_lit.mp hm₂).1]
    exact List.mem_cons_self
  exact absurd (List.eq_of_mem_replicate ((rest_suffix hm₁).subset hmem)) (by decide)

theorem int16_size {p : Piece} (h : p.Ok) :
    int16 (p.size.map Char.toLower) = .ok p.chunk.length := by
  have hvalue := hexFrom_toLower (hexFrom_size h)
  have hx : ¬"0x".toList.isPrefixOf (p.size.map Char.toLower) = true := by
    intro hp
    have hmem : 'x' ∈ p.size.map Char.toLower :=
      (List.isPrefixOf_iff_prefix.mp hp).subset (by decide)
    obtain ⟨v, hv⟩ := hexVal_of_mem hvalue hmem
    exact absurd hv (by rw [show hexVal 'x' = none from by decide]; simp)
  rw [int16, if_neg hx, hexNumber, if_neg (by simpa using size_ne_nil h), hvalue]

theorem partitionAfter_append {size : Str} (h : '\r' ∉ size) (rest : Str) :
    partitionAfter CRLF (size ++ (CRLF ++ rest)) = rest := by
  induction size with
  | nil => rfl
  | cons c size ih =>
    rw [List.mem_cons, not_or] at h
    have hp : ¬CRLF.isPrefixOf (c :: (size ++ (CRLF ++ rest))) = true := fun hp =>
      h.1 (List.cons_prefix_cons.mp (List.isPrefixOf_iff_prefix.mp hp)).1
    rw [List.cons_append, partitionAfter, if_neg hp, ih h.2]

/-- A body begins with a digit and ends with one. -/
theorem stripSpace_body {ps : List Piece} (hps : ∀ p ∈ ps, p.Ok) (zeros : Nat) {lead trail : Str}
    (hlead : ∀ c ∈ lead, whitespace c = true) (htrail : ∀ c ∈ trail, whitespace c = true) :
    stripSpace (lead ++ body ps zeros ++ trail) = body ps zeros := by
  have hzero : whitespace '0' = false := by decide
  refine stripSpace_append hlead htrail ?_ ?_ (by simp [body])
  · cases ps with
    | nil =>
      intro c hc
      obtain rfl : '0' = c := Option.some.inj hc
      exact hzero
    | cons p ps =>
      have hp := hps p List.mem_cons_self
      obtain ⟨d, size, hsize⟩ := List.exists_cons_of_ne_nil (size_ne_nil hp)
      intro c hc
      have hcd : d = c := by simpa [body, Piece.text, hsize] using hc
      obtain ⟨v, hv⟩ := hexVal_of_mem (hexFrom_size hp) (c := d) (by simp [hsize])
      rw [← hcd]
      exact not_whitespace_of_hexVal hv
  · intro c hc
    rw [body, List.replicate_succ', ← List.append_assoc, List.getLast?_concat] at hc
    obtain rfl := Option.some.inj hc
    exact hzero

/-- The parser returns the chunks of a body. -/
theorem parse_loop_body {ps : List Piece} (hps : ∀ p ∈ ps, p.Ok) (zeros : Nat) {fuel : Nat}
    (hfuel : ps.length < fuel) (chunks : List Str) :
    parse_loop fuel (body ps zeros) chunks =
      some (.ok (chunks ++ ps.map Piece.chunk).flatten) := by
  induction ps generalizing fuel chunks with
  | nil =>
    obtain ⟨fuel, rfl⟩ := Nat.exists_eq_succ_of_ne_zero (Nat.ne_of_gt hfuel)
    have hbody : body [] zeros = List.replicate (zeros + 1) '0' := rfl
    rw [parse_loop, if_neg (by simp [hbody]), hbody, header_none zeros, List.map_nil,
      List.append_nil]
  | cons p ps ih =>
    have hpos : fuel ≠ 0 := Nat.ne_of_gt (Nat.zero_lt_of_lt hfuel)
    obtain ⟨fuel, rfl⟩ := Nat.exists_eq_succ_of_ne_zero hpos
    obtain ⟨hp, hps⟩ := List.forall_mem_cons.mp hps
    have hvalue := hexFrom_size hp
    have halnum : ∀ c ∈ p.size, alnum c = true := by
      intro c hc
      obtain ⟨v, hv⟩ := hexVal_of_mem hvalue hc
      exact alnum_of_hexVal hv
    have hcr : '\r' ∉ p.size := fun hc => absurd (halnum _ hc) (by decide)
    have hbody : body (p :: ps) zeros =
        p.size ++ (CRLF ++ (p.chunk ++ (p.tail ++ body ps zeros))) := by
      simp [body, Piece.text]
    obtain ⟨m, hm, hgroup⟩ := @header_match p.size (p.chunk ++ (p.tail ++ body ps zeros))
      (size_ne_nil hp) halnum
    have hstrip := @stripSpace_body ps hps zeros p.tail [] hp.tail (by simp)
    rw [List.append_nil] at hstrip
    rw [parse_loop, if_neg (by simp [hbody, CRLF]), hbody, hm]
    dsimp only
    rw [hgroup, Option.getD_some, int16_size hp]
    dsimp only
    rw [partitionAfter_append hcr, List.drop_left, List.take_left, hstrip,
      ih hps (Nat.lt_of_succ_lt_succ hfuel)]
    simp

theorem length_le_body (ps : List Piece) (zeros : Nat) : ps.length ≤ (body ps zeros).length := by
  induction ps with
  | nil => exact Nat.zero_le _
  | cons p ps ih =>
    simp only [body, List.flatMap_cons, List.append_assoc, List.length_append, List.length_cons,
      Piece.text, CRLF] at ih ⊢
    omega

theorem parse_body {ps : List Piece} (hps : ∀ p ∈ ps, p.Ok) (zeros : Nat) :
    parse_chunked_data (body ps zeros ++ (CRLF ++ CRLF)) =
      some (.ok (ps.map Piece.chunk).flatten) := by
  have hstrip := @stripSpace_body ps hps zeros [] (CRLF ++ CRLF) (by simp) (by decide)
  rw [List.nil_append] at hstrip
  rw [parse_chunked_data, hstrip,
    parse_loop_body hps zeros (Nat.lt_succ_of_le (length_le_body ps zeros)), List.nil_append]

/-! ## What is written -/

theorem whitespace_CRLF : ∀ c ∈ CRLF, whitespace c = true := by decide

/-- The chunk of the writer's loop with the number `i`. -/
def slice (data : Str) (chunk_size i : Nat) : Str :=
  (data.take ((i + 1) * chunk_size)).drop (i * chunk_size)

theorem flatten_slices (data : Str) (chunk_size n : Nat) :
    ((List.range n).map (slice data chunk_size)).flatten = data.take (n * chunk_size) := by
  induction n with
  | zero => simp
  | succ n ih =>
    have hle : n * chunk_size ≤ (n + 1) * chunk_size := Nat.mul_le_mul_right _ (Nat.le_succ n)
    have htake : (data.take ((n + 1) * chunk_size)).take (n * chunk_size) =
        data.take (n * chunk_size) := by
      rw [List.take_take, Nat.min_eq_left hle]
    rw [List.range_succ, List.map_append, List.flatten_append, ih, ← htake, List.map_singleton,
      List.flatten_singleton, slice, List.take_append_drop]

/-- The pieces of `create_chunked_data`. -/
def pieces (data : Str) (chunk_size : Nat) : List Piece :=
  (List.range (data.length / chunk_size)).map
      (fun i => ⟨hex chunk_size, slice data chunk_size i, CRLF ++ CRLF⟩) ++
    if data.length % chunk_size ≠ 0 then [⟨hex (data.length % chunk_size),
      data.drop (data.length - data.length % chunk_size), CRLF⟩] else []

theorem create_eq_body (data : Str) (chunk_size : Nat) :
    create_chunked_data data chunk_size = body (pieces data chunk_size) 0 ++ (CRLF ++ CRLF) := by
  rw [create_chunked_data, body, pieces, List.flatMap_append, List.flatMap_map]
  split
  · simp [Piece.text, slice]
  · simp [Piece.text, slice]

theorem pieces_ok {chunk_size : Nat} (h : 1 ≤ chunk_size) (data : Str) :
    ∀ p ∈ pieces data chunk_size, p.Ok := by
  intro p hp
  rcases List.mem_append.mp hp with hp | hp
  · obtain ⟨i, hi, rfl⟩ := List.mem_map.mp hp
    have hlen : (i + 1) * chunk_size ≤ data.length :=
      (Nat.le_div_iff_mul_le h).mp (List.mem_range.mp hi)
    have hmul : (i + 1) * chunk_size = i * chunk_size + chunk_size := Nat.succ_mul i chunk_size
    have hslice : (slice data chunk_size i).length = chunk_size := by
      rw [slice, List.length_drop, List.length_take]
      omega
    refine ⟨?_, ?_⟩
    · rw [hexNumber_hex, hslice]
    · exact List.forall_mem_append.mpr ⟨whitespace_CRLF, whitespace_CRLF⟩
  · split at hp
    · rw [List.mem_singleton] at hp
      subst hp
      refine ⟨?_, whitespace_CRLF⟩
      have hle := Nat.mod_le data.length chunk_size
      rw [hexNumber_hex, List.length_drop]
      congr 1
      omega
    · exact absurd hp List.not_mem_nil

theorem flatten_pieces (data : Str) (chunk_size : Nat) :
    ((pieces data chunk_size).map Piece.chunk).flatten = data := by
  have hdiv : data.length / chunk_size * chunk_size + data.length % chunk_size = data.length :=
    Nat.div_add_mod' _ _
  rw [pieces, List.map_append, List.flatten_append, List.map_map]
  have hfull : ((List.range (data.length / chunk_size)).map
      (Piece.chunk ∘ fun i => ⟨hex chunk_size, slice data chunk_size i, CRLF ++ CRLF⟩)).flatten =
        data.take (data.length / chunk_size * chunk_size) :=
    flatten_slices data chunk_size (data.length / chunk_size)
  rw [hfull]
  split
  · have hrest : data.length - data.length % chunk_size =
        data.length / chunk_size * chunk_size := by omega
    rw [List.map_singleton, List.flatten_singleton, hrest, List.take_append_drop]
  · rw [List.map_nil, List.flatten_nil, List.append_nil, List.take_of_length_le (by omega)]

/-! ## Round trips -/

/-- `text` is the data in chunked transfer coding, without extensions and trailers. -/
inductive Rendering : Str → Str → Prop
  | last (zeros : Nat) : Rendering [] (List.replicate (zeros + 1) '0' ++ (CRLF ++ CRLF))
  | chunk {size chunk data text : Str} : chunk ≠ [] → hexNumber size = some chunk.length →
      Rendering data text → Rendering (chunk ++ data) (size ++ CRLF ++ (chunk ++ CRLF) ++ text)

theorem rendering_eq_body {data text : Str} (h : Rendering data text) :
    ∃ ps zeros, (∀ p ∈ ps, Piece.Ok p) ∧ text = body ps zeros ++ (CRLF ++ CRLF) ∧
      (ps.map Piece.chunk).flatten = data := by
  induction h with
  | last zeros => exact ⟨[], zeros, by simp, rfl, rfl⟩
  | @chunk size chunk data text _ hsize _ ih =>
    obtain ⟨ps, zeros, hps, rfl, rfl⟩ := ih
    refine ⟨⟨size, chunk, CRLF⟩ :: ps, zeros, ?_, ?_, rfl⟩
    · exact List.forall_mem_cons.mpr ⟨⟨hsize, whitespace_CRLF⟩, hps⟩
    · simp [body, Piece.text]

/-- The parser reads back what the writer and every other rendering has written, and it always
comes to an end. -/
theorem parse_create {chunk_size : Nat} (h : 1 ≤ chunk_size) (data : Str) :
    parse_chunked_data (create_chunked_data data chunk_size) = some (.ok data) ∧
      (∀ text, Rendering data text → parse_chunked_data text = some (.ok data)) ∧
      ∀ text, ∃ r, parse_chunked_data text = some r := by
  refine ⟨?_, fun text htext => ?_, fun text => ?_⟩
  · rw [create_eq_body, parse_body (pieces_ok h data), flatten_pieces]
  · obtain ⟨ps, zeros, hps, rfl, rfl⟩ := rendering_eq_body htext
    exact parse_body hps zeros
  · exact exists_parse_loop (Nat.lt_succ_self _) []

theorem parse_create_two :
    parse_chunked_data (create_chunked_data " 0\r\n ".toList 2) = some (.ok " 0\r\n ".toList) :=
  (parse_create (by decide : 1 ≤ 2) " 0\r\n ".toList).1

end LocalStack.Utils.ChunkedData
