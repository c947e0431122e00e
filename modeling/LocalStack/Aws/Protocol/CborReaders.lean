import LocalStack.Aws.Protocol.CborRoundTrip
import LocalStack.Lib.CborItem

/-! What a reader reads, as a relation between its results and the bytes they stand for:
one rule for each way to put readers together, and the strings and arguments of CBOR. -/

namespace LocalStack.Aws.Protocol.Cbor
open LocalStack.Bytes LocalStack.Text LocalStack.CborItem

variable {α β : Type}

/-- On streams shorter than `N`, the reader returns `x` where the bytes of an `x` come
first, and leaves what is behind them. -/
def Reads (N : ℕ) (R : Reader α) (E : α → List UInt8 → Prop) : Prop :=
  ∀ s : Stream, s.length < N → ∀ x rest,
    R s = .ok (x, rest) ↔ ∃ u, s = u ++ rest ∧ E x u

/-- It does not run out of fuel on such streams. -/
def Ends (N : ℕ) (R : Reader α) : Prop :=
  ∀ s : Stream, s.length < N → R s ≠ .error .recursionError

variable {N : ℕ} {R : Reader α} {E : α → List UInt8 → Prop}

theorem Reads.congr {E' : α → List UInt8 → Prop} (h : Reads N R E)
    (hE : ∀ x u, E x u ↔ E' x u) : Reads N R E' := by
  intro s hs x rest
  rw [h s hs]
  simp only [hE]

theorem Reads.mono {M : ℕ} (h : Reads N R E) (hM : M ≤ N) : Reads M R E :=
  fun s hs => h s (hs.trans_le hM)

theorem Ends.mono {M : ℕ} (h : Ends N R) (hM : M ≤ N) : Ends M R :=
  fun s hs => h s (hs.trans_le hM)

/-- What is left is no longer than the stream. -/
theorem Reads.length_le (h : Reads N R E) {s rest : Stream} (hs : s.length < N) {x : α}
    (hr : R s = .ok (x, rest)) : rest.length ≤ s.length := by
  obtain ⟨u, rfl, -⟩ := (h s hs x rest).mp hr
  simp

theorem reads_pure (x : α) : Reads N (fun s => .ok (x, s)) fun y u => y = x ∧ u = [] := by
  intro s _ y rest
  constructor
  · intro h
    obtain ⟨rfl, rfl⟩ := Prod.mk.inj (Except.ok.inj h)
    exact ⟨[], rfl, rfl, rfl⟩
  · rintro ⟨u, rfl, rfl, rfl⟩
    rfl

theorem ends_pure (x : α) : Ends N fun s => .ok (x, s) :=
  fun _ _ => nofun

theorem reads_error (e : Error) : Reads N (fun _ => .error e) fun (_ : α) _ => False := by
  intro s _ y rest
  constructor
  · exact nofun
  · rintro ⟨u, -, h⟩
    exact h.elim

theorem Reads.bind {f : α → Reader β} {F : α → β → List UInt8 → Prop} (h : Reads N R E)
    (hf : ∀ x, Reads N (f x) (F x)) :
    Reads N (fun s => (R s).bind fun r => f r.1 r.2)
      fun y u => ∃ x a b, E x a ∧ F x y b ∧ u = a ++ b := by
  intro s hs y rest
  constructor
  · intro hr
    cases hx : R s with
    | error e => simp [hx, Except.bind] at hr
    | ok r =>
      simp only [hx, Except.bind] at hr
      obtain ⟨a, rfl, ha⟩ := (h s hs r.1 r.2).mp hx
      have hlen : r.2.length < N := lt_of_le_of_lt (by simp) hs
      obtain ⟨b, hb, hF⟩ := (hf r.1 r.2 hlen y rest).mp hr
      exact ⟨a ++ b, by rw [List.append_assoc, ← hb], r.1, a, b, ha, hF, rfl⟩
  · rintro ⟨u, rfl, x, a, b, ha, hF, rfl⟩
    rw [List.append_assoc] at hs ⊢
    have hx := (h _ hs x (b ++ rest)).mpr ⟨a, rfl, ha⟩
    have hlen : (b ++ rest).length < N := by
      rw [List.length_append] at hs
      omega
    simp only [hx, Except.bind]
    exact (hf x _ hlen y rest).mpr ⟨b, rfl, hF⟩

theorem Ends.bind {f : α → Reader β} (h : Ends N R) (hr : Reads N R E)
    (hf : ∀ x, Ends N (f x)) : Ends N fun s => (R s).bind fun r => f r.1 r.2 := by
  intro s hs he
  cases hx : R s with
  | error e =>
    simp only [hx, Except.bind, Except.error.injEq] at he
    exact h s hs (by rw [hx, he])
  | ok r =>
    simp only [hx, Except.bind] at he
    exact hf r.1 r.2 ((hr.length_le hs hx).trans_lt hs) he

/-- A value that is made of what is read, or not. -/
theorem Reads.mapExcept {g : α → Except Error β} (h : Reads N R E) :
    Reads N (fun s => (R s).bind fun r => (g r.1).map fun y => (y, r.2))
      fun y u => ∃ x, E x u ∧ g x = .ok y := by
  intro s hs y rest
  constructor
  · intro hr
    cases hx : R s with
    | error e => simp [hx, Except.bind] at hr
    | ok r =>
      obtain ⟨u, hu, hE⟩ := (h s hs r.1 r.2).mp hx
      simp only [hx, Except.bind] at hr
      cases hg : g r.1 with
      | error e => simp [hg, Except.map] at hr
      | ok z =>
        simp only [hg, Except.map, Except.ok.injEq, Prod.mk.injEq] at hr
        obtain ⟨rfl, rfl⟩ := hr
        exact ⟨u, hu, r.1, hE, hg⟩
  · rintro ⟨u, rfl, x, hE, hg⟩
    have hx := (h _ hs x rest).mpr ⟨u, rfl, hE⟩
    simp only [hx, Except.bind, hg, Except.map]

theorem Ends.mapExcept {g : α → Except Error β} (h : Ends N R)
    (hg : ∀ x, g x ≠ .error .recursionError) :
    Ends N fun s => (R s).bind fun r => (g r.1).map fun y => (y, r.2) := by
  intro s hs he
  cases hx : R s with
  | error e =>
    simp only [hx, Except.bind, Except.error.injEq] at he
    exact h s hs (by rw [hx, he])
  | ok r =>
    simp only [hx, Except.bind] at he
    cases hr : g r.1 with
    | error e =>
      simp only [hr, Except.map, Except.error.injEq] at he
      exact hg r.1 (by rw [hr, he])
    | ok y => simp [hr, Except.map] at he

theorem Reads.map {g : α → β} (h : Reads N R E) :
    Reads N (fun s => (R s).map fun r => (g r.1, r.2)) fun y u => ∃ x, E x u ∧ y = g x := by
  intro s hs y rest
  constructor
  · intro hr
    cases hx : R s with
    | error e => simp [hx, Except.map] at hr
    | ok r =>
      obtain ⟨u, hu, hE⟩ := (h s hs r.1 r.2).mp hx
      simp only [hx, Except.map, Except.ok.injEq, Prod.mk.injEq] at hr
      obtain ⟨rfl, rfl⟩ := hr
      exact ⟨u, hu, r.1, hE, rfl⟩
  · rintro ⟨u, rfl, x, hE, rfl⟩
    have hx := (h _ hs x rest).mpr ⟨u, rfl, hE⟩
    simp only [hx, Except.map]

theorem Ends.map {g : α → β} (h : Ends N R) :
    Ends N fun s => (R s).map fun r => (g r.1, r.2) := by
  intro s hs he
  cases hx : R s with
  | error e =>
    simp only [hx, Except.map, Except.error.injEq] at he
    exact h s hs (by rw [hx, he])
  | ok r => simp [hx, Except.map] at he

/-! ## Several items -/

theorem reads_readTimes (h : Reads N R E) (n : ℕ) :
    Reads N (readTimes R n) fun xs u => xs.length = n ∧ Seq E xs u := by
  induction n with
  | zero =>
    refine (@reads_pure (List α) N []).congr fun xs u => ?_
    constructor
    · rintro ⟨rfl, rfl⟩
      exact ⟨rfl, .nil⟩
    · rintro ⟨hlen, hs⟩
      obtain rfl := List.eq_nil_of_length_eq_zero hlen
      cases hs
      exact ⟨rfl, rfl⟩
  | succ n ih =>
    have hmore : ∀ x, Reads N (fun s => (readTimes R n s).map fun r => (x :: r.1, r.2))
        fun ys u => ∃ xs, (xs.length = n ∧ Seq E xs u) ∧ ys = x :: xs := fun x => ih.map
    have hall := h.bind hmore
    refine Reads.congr (R := readTimes R (n + 1)) hall fun ys u => ?_
    constructor
    · rintro ⟨x, a, b, ha, ⟨xs, ⟨rfl, hs⟩, rfl⟩, rfl⟩
      exact ⟨rfl, .cons ha hs⟩
    · rintro ⟨hlen, hs⟩
      cases hs with
      | nil => cases hlen
      | cons ha hs =>
        exact ⟨_, _, _, ha, ⟨_, ⟨Nat.succ.inj hlen, hs⟩, rfl⟩, rfl⟩

theorem ends_readTimes (h : Ends N R) (hr : Reads N R E) (n : ℕ) :
    Ends N (readTimes R n) := by
  induction n with
  | zero => exact fun s _ => nofun
  | succ n ih =>
    have hmore : ∀ x, Ends N (fun s => (readTimes R n s).map fun r => (x :: r.1, r.2)) :=
      fun x => ih.map
    exact h.bind hr hmore

theorem handle_break_code_break (s : Stream) : handle_break_code (breakByte :: s) = some s :=
  rfl

theorem handle_break_code_of_ne {s : Stream} (h : ∀ s', s ≠ breakByte :: s') :
    handle_break_code s = none := by
  cases s with
  | nil => rfl
  | cons b s =>
    have hb : b ≠ breakCode := fun hb => h s (by rw [hb]; rfl)
    simp only [handle_break_code, if_neg hb]

/-- No item begins with the break. -/
theorem seq_append_break (hne : ∀ x u, E x u → ∃ b v, u = b :: v ∧ b ≠ breakByte) {xs : List α}
    {v s rest : Stream} (hs : Seq E xs v)
    (h : breakByte :: s = (v ++ [breakByte]) ++ rest) : xs = [] ∧ v = [] := by
  cases hs with
  | nil => exact ⟨rfl, rfl⟩
  | cons hx _ =>
    obtain ⟨b, w, rfl, hb⟩ := hne _ _ hx
    rw [List.cons_append, List.cons_append, List.cons_append] at h
    exact absurd (List.cons.inj h).1.symm hb

/-- As far as the fuel goes, where every item takes a byte and none begins with the break. -/
theorem readUntilBreak_iff (h : Reads N R E)
    (hne : ∀ x u, E x u → ∃ b v, u = b :: v ∧ b ≠ breakByte) {fuel : ℕ} {s : Stream}
    (hs : s.length < N) (hfuel : s.length < fuel) (xs : List α) (rest : Stream) :
    readUntilBreak R fuel s = .ok (xs, rest) ↔
      ∃ v, s = (v ++ [breakByte]) ++ rest ∧ Seq E xs v := by
  induction fuel generalizing s xs with
  | zero => omega
  | succ fuel ih =>
    by_cases hbreak : ∃ s', s = breakByte :: s'
    · obtain ⟨s, rfl⟩ := hbreak
      simp only [readUntilBreak, handle_break_code_break, Except.ok.injEq, Prod.mk.injEq]
      constructor
      · rintro ⟨rfl, rfl⟩
        exact ⟨[], rfl, .nil⟩
      · rintro ⟨v, hv, hseq⟩
        obtain ⟨rfl, rfl⟩ := seq_append_break hne hseq hv
        exact ⟨rfl, (List.cons.inj hv).2⟩
    · have hnone := handle_break_code_of_ne fun s' hs' => hbreak ⟨s', hs'⟩
      have hshort : ∀ {u s' : Stream} {x : α}, E x u → s = u ++ s' →
          s'.length < N ∧ s'.length < fuel := by
        intro u s' x hx he
        obtain ⟨b, w, rfl, -⟩ := hne x u hx
        rw [he, List.length_append, List.length_cons] at hs hfuel
        omega
      simp only [readUntilBreak, hnone]
      constructor
      · intro hr
        cases hx : R s with
        | error e => simp [hx, bind, Except.bind] at hr
        | ok r =>
          obtain ⟨x, s'⟩ := r
          obtain ⟨u, hu, hE⟩ := (h s hs x s').mp hx
          obtain ⟨hN, hf⟩ := hshort hE hu
          cases hys : readUntilBreak R fuel s' with
          | error e => simp [hx, hys, bind, Except.bind] at hr
          | ok r =>
            obtain ⟨ys, s''⟩ := r
            simp only [hx, hys, bind, Except.bind, pure, Except.pure, Except.ok.injEq,
              Prod.mk.injEq] at hr
            obtain ⟨rfl, rfl⟩ := hr
            obtain ⟨v, hv, hseq⟩ := (ih hN hf ys).mp hys
            exact ⟨u ++ v, by rw [hu, hv]; simp, .cons hE hseq⟩
      · rintro ⟨v, hv, hseq⟩
        cases hseq with
        | nil => exact absurd ⟨rest, hv⟩ hbreak
        | @cons x xs u w hE hseq =>
          have hu : s = u ++ ((w ++ [breakByte]) ++ rest) := by rw [hv]; simp
          obtain ⟨hN, hf⟩ := hshort hE hu
          have hx := (h s hs x _).mpr ⟨u, hu, hE⟩
          have hys := (ih hN hf xs).mpr ⟨w, rfl, hseq⟩
          simp only [hx, hys, bind, Except.bind, pure, Except.pure]

theorem reads_readUntilBreak (h : Reads N R E)
    (hne : ∀ x u, E x u → ∃ b v, u = b :: v ∧ b ≠ breakByte) :
    Reads N (fun s => readUntilBreak R (s.length + 1) s)
      fun xs u => ∃ v, u = v ++ [breakByte] ∧ Seq E xs v := by
  intro s hs xs rest
  rw [readUntilBreak_iff h hne hs (Nat.lt_succ_self _)]
  constructor
  · rintro ⟨v, hv, hseq⟩
    exact ⟨_, hv, v, rfl, hseq⟩
  · rintro ⟨_, hv, v, rfl, hseq⟩
    exact ⟨v, hv, hseq⟩

theorem ends_readUntilBreak (h : Ends N R) (hr : Reads N R E)
    (hne : ∀ x u, E x u → ∃ b v, u = b :: v ∧ b ≠ breakByte) :
    Ends N fun s => readUntilBreak R (s.length + 1) s := by
  have hfuel : ∀ fuel (s : Stream), s.length < N → s.length < fuel →
      readUntilBreak R fuel s ≠ .error .recursionError := by
    intro fuel
    induction fuel with
    | zero => exact fun s _ hf => absurd hf (Nat.not_lt_zero _)
    | succ fuel ih =>
      intro s hs hf he
      simp only [readUntilBreak] at he
      split at he
      · cases he
      · cases hx : R s with
        | error e =>
          simp only [hx, bind, Except.bind, Except.error.injEq] at he
          exact h s hs (by rw [hx, he])
        | ok r =>
          obtain ⟨u, hu, hE⟩ := (hr s hs r.1 r.2).mp hx
          obtain ⟨b, w, rfl, -⟩ := hne _ _ hE
          have hlen : s.length = w.length + 1 + r.2.length := by
            rw [hu, List.length_append, List.length_cons]
          cases hys : readUntilBreak R fuel r.2 with
          | error e =>
            simp only [hx, hys, bind, Except.bind, Except.error.injEq] at he
            exact ih r.2 (by omega) (by omega) (by rw [hys, he])
          | ok r => simp [hx, hys, bind, Except.bind, pure, Except.pure] at he
  exact fun s hs => hfuel _ s hs (Nat.lt_succ_self _)

/-! ## Bytes and arguments -/

theorem reads_read_from_stream (n : ℕ) :
    Reads N (read_from_stream n) fun x u => x = u ∧ u.length = n := by
  intro s _ x rest
  unfold read_from_stream
  constructor
  · intro h
    split_ifs at h with hn
    obtain ⟨rfl, rfl⟩ := Prod.mk.inj (Except.ok.inj h)
    exact ⟨s.take n, (List.take_append_drop n s).symm, rfl, List.length_take_of_le hn⟩
  · rintro ⟨u, rfl, rfl, rfl⟩
    simp

theorem ends_read_from_stream (n : ℕ) : Ends N (read_from_stream n) := by
  intro s _ h
  unfold read_from_stream at h
  split_ifs at h <;> cases h

theorem reads_read_bytes_as_int (k : ℕ) :
    Reads N (read_bytes_as_int k) fun n u => u.length = k ∧ n = fromBytes u := by
  have h : Reads N (read_bytes_as_int k) _ :=
    (reads_read_from_stream k).bind fun byte => reads_pure (fromBytes byte)
  refine h.congr fun n u => ?_
  constructor
  · rintro ⟨x, a, b, ⟨rfl, hlen⟩, ⟨rfl, rfl⟩, rfl⟩
    rw [List.append_nil]
    exact ⟨hlen, rfl⟩
  · rintro ⟨hlen, rfl⟩
    exact ⟨u, u, [], ⟨rfl, hlen⟩, ⟨rfl, rfl⟩, (List.append_nil u).symm⟩

theorem ends_read_bytes_as_int (k : ℕ) : Ends N (read_bytes_as_int k) :=
  (ends_read_from_stream k).bind (reads_read_from_stream k) fun bs => ends_pure (fromBytes bs)

theorem reads_parse_type_unsigned_integer (info : ℕ) :
    Reads N (parse_type_unsigned_integer info) fun n u => Argument info u n := by
  by_cases hinfo : info < 24
  · have h : Reads N (parse_type_unsigned_integer info) fun n u => n = info ∧ u = [] := by
      unfold parse_type_unsigned_integer
      simp only [if_pos hinfo]
      exact reads_pure info
    refine h.congr fun n u => ?_
    constructor
    · rintro ⟨rfl, rfl⟩
      exact .inl ⟨hinfo, rfl, rfl⟩
    · rintro (⟨-, rfl, rfl⟩ | ⟨hmem, -⟩)
      · exact ⟨rfl, rfl⟩
      · simp only [List.mem_cons, Prod.mk.injEq, List.not_mem_nil, or_false] at hmem
        omega
  · unfold parse_type_unsigned_integer
    simp only [if_neg hinfo]
    split
    case' h_5 => refine (reads_error .protocolParserError).congr fun n u => ?_
    case' h_1 => refine (reads_read_bytes_as_int 1).congr fun n u => ?_
    case' h_2 => refine (reads_read_bytes_as_int 2).congr fun n u => ?_
    case' h_3 => refine (reads_read_bytes_as_int 4).congr fun n u => ?_
    case' h_4 => refine (reads_read_bytes_as_int 8).congr fun n u => ?_
    all_goals simp_all [Argument]

theorem ends_parse_type_unsigned_integer (info : ℕ) :
    Ends N (parse_type_unsigned_integer info) := by
  intro s hs h
  unfold parse_type_unsigned_integer at h
  split_ifs at h
  split at h
  · exact ends_read_bytes_as_int 1 s hs h
  · exact ends_read_bytes_as_int 2 s hs h
  · exact ends_read_bytes_as_int 4 s hs h
  · exact ends_read_bytes_as_int 8 s hs h
  · cases h

/-- A reader that goes on after an initial byte. -/
theorem reads_initial_byte {f : ℕ → Reader β} {F : UInt8 → β → List UInt8 → Prop}
    (hf : ∀ b : UInt8, Reads N (f b.toNat) (F b)) :
    Reads (N + 1) (fun s => (read_bytes_as_int 1 s).bind fun r => f r.1 r.2)
      fun y u => ∃ b v, u = b :: v ∧ F b y v := by
  intro s hs y rest
  cases s with
  | nil =>
    constructor
    · exact nofun
    · rintro ⟨u, hu, b, v, rfl, -⟩
      cases hu
  | cons b s =>
    have hlen : s.length < N := Nat.lt_of_succ_lt_succ hs
    simp only [read_bytes_as_int_cons, Except.bind]
    rw [hf b s hlen y rest]
    constructor
    · rintro ⟨v, rfl, hF⟩
      exact ⟨b :: v, rfl, b, v, rfl, hF⟩
    · rintro ⟨_, hu, b', v, rfl, hF⟩
      obtain ⟨rfl, rfl⟩ := List.cons.inj hu
      exact ⟨v, rfl, hF⟩

theorem ends_initial_byte {f : ℕ → Reader β} (hf : ∀ b : UInt8, Ends N (f b.toNat)) :
    Ends (N + 1) fun s => (read_bytes_as_int 1 s).bind fun r => f r.1 r.2 := by
  intro s hs h
  cases s with
  | nil => exact nomatch h
  | cons b s =>
    simp only [read_bytes_as_int_cons, Except.bind] at h
    exact hf b s (Nat.lt_of_succ_lt_succ hs) h

/-- A length, and as many bytes. -/
def readSized (info : ℕ) : Reader (List UInt8) := fun s =>
  (parse_type_unsigned_integer info s).bind fun r => read_from_stream r.1 r.2

def Sized (info : ℕ) (content u : List UInt8) : Prop :=
  ∃ arg, Argument info arg content.length ∧ u = arg ++ content

theorem reads_sized (info : ℕ) : Reads N (readSized info) (Sized info) := by
  refine Reads.congr (R := readSized info)
    ((reads_parse_type_unsigned_integer info).bind reads_read_from_stream) fun content u => ?_
  constructor
  · rintro ⟨n, arg, b, harg, ⟨rfl, rfl⟩, rfl⟩
    exact ⟨arg, harg, rfl⟩
  · rintro ⟨arg, harg, rfl⟩
    exact ⟨_, arg, content, harg, ⟨rfl, rfl⟩, rfl⟩

theorem ends_sized (info : ℕ) : Ends N (readSized info) :=
  (ends_parse_type_unsigned_integer info).bind (reads_parse_type_unsigned_integer info)
    ends_read_from_stream

theorem not_argument_indefinite {arg : List UInt8} {n : ℕ} :
    ¬ Argument indefinite arg n := fun h => absurd h.info_lt (by decide)

theorem reads_readEntries (h : Reads N R E)
    (hne : ∀ x u, E x u → ∃ b v, u = b :: v ∧ b ≠ breakByte) (info : ℕ) :
    Reads N (readEntries R info) (Entries E info) := by
  by_cases hinfo : info = indefinite
  · subst hinfo
    refine Reads.congr (R := readEntries R indefinite) (reads_readUntilBreak h hne)
      fun xs u => ?_
    constructor
    · exact fun hu => .inr ⟨rfl, hu⟩
    · rintro (⟨arg, v, harg, -⟩ | ⟨-, hu⟩)
      · exact absurd harg not_argument_indefinite
      · exact hu
  · have hdef : readEntries R info = fun s =>
        (parse_type_unsigned_integer info s).bind fun r => readTimes R r.1 r.2 := by
      funext s
      exact if_pos hinfo
    rw [hdef]
    refine Reads.congr ((reads_parse_type_unsigned_integer info).bind (reads_readTimes h))
      fun xs u => ?_
    constructor
    · rintro ⟨n, arg, v, harg, ⟨rfl, hseq⟩, rfl⟩
      exact .inl ⟨arg, v, harg, rfl, hseq⟩
    · rintro (⟨arg, v, harg, rfl, hseq⟩ | ⟨hi, -⟩)
      · exact ⟨_, arg, v, harg, ⟨rfl, hseq⟩, rfl⟩
      · exact absurd hi hinfo

theorem ends_readEntries (h : Ends N R) (hr : Reads N R E)
    (hne : ∀ x u, E x u → ∃ b v, u = b :: v ∧ b ≠ breakByte) (info : ℕ) :
    Ends N (readEntries R info) := by
  by_cases hinfo : info = indefinite
  · subst hinfo
    exact ends_readUntilBreak h hr hne
  · have hdef : readEntries R info = fun s =>
        (parse_type_unsigned_integer info s).bind fun r => readTimes R r.1 r.2 := by
      funext s
      exact if_pos hinfo
    rw [hdef]
    exact (ends_parse_type_unsigned_integer info).bind (reads_parse_type_unsigned_integer info)
      (ends_readTimes h hr)

/-! ## Trees -/

/-- A chunk with its major type. -/
def readChunkItem : Reader (ℕ × List UInt8) := fun s =>
  (read_bytes_as_int 1 s).bind fun r =>
    (readSized (r.1 &&& 0b00011111) r.2).map fun c => ((r.1 >>> 5, c.1), c.2)

theorem reads_readChunkItem : Reads N readChunkItem Chunk := by
  have h := reads_initial_byte
    (f := fun n s => (readSized (n &&& 0b00011111) s).map fun c => ((n >>> 5, c.1), c.2))
    fun b => (@reads_sized N (additionalInfo b)).map (g := fun c => (majorType b, c))
  refine Reads.congr (R := readChunkItem) (h.mono (Nat.le_succ N)) fun c u => ?_
  constructor
  · rintro ⟨b, v, rfl, content, ⟨arg, harg, rfl⟩, rfl⟩
    exact ⟨b, arg, rfl, harg, rfl⟩
  · rintro ⟨b, arg, hb, harg, rfl⟩
    exact ⟨b, _, rfl, c.2, ⟨arg, harg, rfl⟩, by rw [hb]⟩

/-- The chunks of an indefinite string, as the decoder reads them. -/
theorem reads_readChunk : Reads N readChunk fun content u => ∃ m, Chunk (m, content) u := by
  have h := reads_initial_byte (f := fun n => readSized (n &&& 0b00011111))
    fun b => @reads_sized N (additionalInfo b)
  refine Reads.congr (R := readChunk) (h.mono (Nat.le_succ N)) fun content u => ?_
  constructor
  · rintro ⟨b, v, rfl, arg, harg, rfl⟩
    exact ⟨_, b, arg, rfl, harg, rfl⟩
  · rintro ⟨m, b, arg, -, harg, rfl⟩
    exact ⟨b, _, rfl, arg, harg, rfl⟩

theorem ends_readChunk : Ends N readChunk :=
  (ends_initial_byte (f := fun n => readSized (n &&& 0b00011111))
    fun b => ends_sized (additionalInfo b)).mono (Nat.le_succ N)

def readString (text : Bool) (info : ℕ) : Reader Item := fun s =>
  if info ≠ indefinite then
    (readSized info s).map fun r => (.string text r.1, r.2)
  else
    (readUntilBreak readChunkItem (s.length + 1) s).map fun r => (.chunked text r.1, r.2)

def readPair (item : Reader Item) : Reader (Item × Item) := fun s =>
  (item s).bind fun k => (item k.2).map fun v => ((k.1, v.1), v.2)

/-- What follows an initial byte. -/
def readBody (item : Reader Item) (major info : ℕ) : Reader Item := fun s =>
  match major with
  | 0 => (parse_type_unsigned_integer info s).map fun r => (.unsigned r.1, r.2)
  | 1 => (parse_type_unsigned_integer info s).map fun r => (.negative r.1, r.2)
  | 2 => readString false info s
  | 3 => readString true info s
  | 4 => (readEntries item info s).map fun r => (.array r.1, r.2)
  | 5 => (readEntries (readPair item) info s).map fun r => (.map r.1, r.2)
  | 6 =>
    (parse_type_unsigned_integer info s).bind fun n =>
      (item n.2).map fun i => (.tag n.1 i.1, i.2)
  | _ =>
    match info with
    | 20 | 21 | 22 | 23 => .ok (.simple info, s)
    | 25 => (read_from_stream 2 s).map fun r => (.float r.1, r.2)
    | 26 => (read_from_stream 4 s).map fun r => (.float r.1, r.2)
    | 27 => (read_from_stream 8 s).map fun r => (.float r.1, r.2)
    | _ => .error .protocolParserError

theorem reads_readString (text : Bool) {b : UInt8} (hm : majorType b = stringMajor text) :
    Reads N (readString text (additionalInfo b)) fun t v => Encodes t (b :: v) := by
  by_cases hi : additionalInfo b = indefinite
  · have hdef : readString text (additionalInfo b) = fun s =>
        (readUntilBreak readChunkItem (s.length + 1) s).map
          fun r => (Item.chunked text r.1, r.2) := by
      funext s
      exact if_neg fun hne => hne hi
    rw [hdef]
    refine ((reads_readUntilBreak reads_readChunkItem fun _ _ => Chunk.exists_cons).map
      (g := Item.chunked text)).congr fun t v => ?_
    rw [encodes_string hm]
    constructor
    · rintro ⟨chunks, ⟨u, rfl, hc⟩, rfl⟩
      exact .inr ⟨hi, chunks, u, rfl, hc, rfl⟩
    · rintro (⟨content, arg, ha, -⟩ | ⟨-, chunks, u, rfl, hc, rfl⟩)
      · rw [hi] at ha
        exact absurd ha not_argument_indefinite
      · exact ⟨chunks, ⟨u, rfl, hc⟩, rfl⟩
  · have hdef : readString text (additionalInfo b) = fun s =>
        (readSized (additionalInfo b) s).map fun r => (Item.string text r.1, r.2) := by
      funext s
      exact if_pos hi
    rw [hdef]
    refine ((reads_sized (additionalInfo b)).map (g := Item.string text)).congr fun t v => ?_
    rw [encodes_string hm]
    constructor
    · rintro ⟨content, ⟨arg, ha, rfl⟩, rfl⟩
      exact .inl ⟨content, arg, ha, rfl, rfl⟩
    · rintro (⟨content, arg, ha, rfl, rfl⟩ | ⟨hi', -⟩)
      · exact ⟨content, ⟨arg, ha, rfl⟩, rfl⟩
      · exact absurd hi' hi

theorem reads_readPair {item : Reader Item} (h : Reads N item Encodes) :
    Reads N (readPair item) Entry := by
  refine Reads.congr (R := readPair item)
    (h.bind (f := fun k s => (item s).map fun v : Item × Stream => ((k, v.1), v.2))
      fun k => h.map (g := fun v => (k, v))) fun p u => ?_
  constructor
  · rintro ⟨k, a, b, ha, ⟨v, hb, rfl⟩, rfl⟩
    exact ⟨a, b, ha, hb, rfl⟩
  · rintro ⟨a, b, ha, hb, rfl⟩
    exact ⟨p.1, a, b, ha, ⟨p.2, hb, rfl⟩, rfl⟩

theorem reads_float (b : UInt8) (hm : majorType b = 7) {n : ℕ}
    (hi : (additionalInfo b, n) ∈ [(25, 2), (26, 4), (27, 8)]) :
    Reads N (fun s => (read_from_stream n s).map fun r => (Item.float r.1, r.2))
      fun t v => Encodes t (b :: v) := by
  refine ((reads_read_from_stream n).map (g := Item.float)).congr fun t v => ?_
  rw [encodes_simple_or_float hm]
  simp only [List.mem_cons, Prod.mk.injEq, List.not_mem_nil, or_false] at hi ⊢
  constructor
  · rintro ⟨content, ⟨rfl, hlen⟩, rfl⟩
    exact .inr ⟨by rw [hlen]; exact hi, rfl⟩
  · rintro (⟨hlt, -⟩ | ⟨hlen, rfl⟩)
    · omega
    · exact ⟨v, ⟨rfl, by omega⟩, rfl⟩

theorem reads_simple {b : UInt8} (hm : majorType b = 7)
    (hi : 20 ≤ additionalInfo b ∧ additionalInfo b ≤ 23) :
    Reads N (fun s => .ok (Item.simple (additionalInfo b), s)) fun t v => Encodes t (b :: v) := by
  refine (reads_pure (Item.simple (additionalInfo b))).congr fun t v => ?_
  rw [encodes_simple_or_float hm]
  constructor
  · rintro ⟨rfl, rfl⟩
    exact .inl ⟨hi, rfl, rfl⟩
  · rintro (⟨-, rfl, rfl⟩ | ⟨hc, -⟩)
    · exact ⟨rfl, rfl⟩
    · simp only [List.mem_cons, Prod.mk.injEq, List.not_mem_nil, or_false] at hc
      omega

theorem reads_readBody {item : Reader Item} (h : Reads N item Encodes) (b : UInt8) :
    Reads N (readBody item (majorType b) (additionalInfo b)) fun t v => Encodes t (b :: v) := by
  rcases majorType_cases b with hm | hm | hm | hm | hm | hm | hm | hm <;> rw [hm]
  · refine Reads.congr (R := readBody item 0 (additionalInfo b))
      ((reads_parse_type_unsigned_integer (additionalInfo b)).map (g := Item.unsigned))
      fun t v => (encodes_unsigned hm).symm
  · refine Reads.congr (R := readBody item 1 (additionalInfo b))
      ((reads_parse_type_unsigned_integer (additionalInfo b)).map (g := Item.negative))
      fun t v => (encodes_negative hm).symm
  · exact reads_readString false hm
  · exact reads_readString true hm
  · refine Reads.congr (R := readBody item 4 (additionalInfo b))
      ((reads_readEntries h (fun _ _ => Encodes.exists_cons) (additionalInfo b)).map
        (g := Item.array)) fun t v => (encodes_array hm).symm
  · refine Reads.congr (R := readBody item 5 (additionalInfo b))
      ((reads_readEntries (reads_readPair h) (fun _ _ => Entry.exists_cons)
        (additionalInfo b)).map (g := Item.map)) fun t v => (encodes_map hm).symm
  · refine Reads.congr (R := readBody item 6 (additionalInfo b))
      ((reads_parse_type_unsigned_integer (additionalInfo b)).bind
        (f := fun n s => (item s).map fun i : Item × Stream => (Item.tag n i.1, i.2))
        fun n => h.map (g := Item.tag n)) fun t v => ?_
    rw [encodes_tag hm]
    constructor
    · rintro ⟨n, arg, u, ha, ⟨item, hu, rfl⟩, rfl⟩
      exact ⟨n, item, arg, u, ha, hu, rfl, rfl⟩
    · rintro ⟨n, item, arg, u, ha, hu, rfl, rfl⟩
      exact ⟨n, arg, u, ha, ⟨item, hu, rfl⟩, rfl⟩
  · have hdef : readBody item 7 (additionalInfo b) = fun s =>
        match additionalInfo b with
        | 20 | 21 | 22 | 23 => .ok (.simple (additionalInfo b), s)
        | 25 => (read_from_stream 2 s).map fun r => (.float r.1, r.2)
        | 26 => (read_from_stream 4 s).map fun r => (.float r.1, r.2)
        | 27 => (read_from_stream 8 s).map fun r => (.float r.1, r.2)
        | _ => .error .protocolParserError := rfl
    rw [hdef]
    split
    · exact reads_simple hm (by omega)
    · exact reads_simple hm (by omega)
    · exact reads_simple hm (by omega)
    · exact reads_simple hm (by omega)
    · exact reads_float b hm (by simp [*])
    · exact reads_float b hm (by simp [*])
    · exact reads_float b hm (by simp [*])
    · refine (reads_error .protocolParserError).congr fun t v => ?_
      rw [encodes_simple_or_float hm]
      simp only [List.mem_cons, Prod.mk.injEq, List.not_mem_nil, or_false]
      constructor
      · exact False.elim
      · rintro (⟨hi, -⟩ | ⟨hc, -⟩) <;> grind

/-- The tree of the item that a stream begins with. -/
def readItem : ℕ → Reader Item
  | 0, _ => .error .recursionError
  | fuel + 1, s =>
    (read_bytes_as_int 1 s).bind fun r =>
      readBody (readItem fuel) (r.1 >>> 5) (r.1 &&& 0b00011111) r.2

theorem reads_readItem (fuel : ℕ) : Reads fuel (readItem fuel) Encodes := by
  induction fuel with
  | zero => exact fun s hs => absurd hs (Nat.not_lt_zero _)
  | succ fuel ih =>
    refine Reads.congr (R := readItem (fuel + 1)) (reads_initial_byte
      (f := fun n => readBody (readItem fuel) (n >>> 5) (n &&& 0b00011111))
      fun b => reads_readBody ih b) fun t u => ?_
    constructor
    · rintro ⟨b, v, rfl, h⟩
      exact h
    · intro h
      obtain ⟨b, v, rfl, -⟩ := h.exists_cons
      exact ⟨b, v, rfl, h⟩

/-- What a stream begins with is one item at most. -/
theorem encodes_unique {t t' : Item} {u u' r r' : List UInt8} (h : Encodes t u)
    (h' : Encodes t' u') (he : u ++ r = u' ++ r') : t = t' ∧ u = u' ∧ r = r' := by
  have hread := reads_readItem ((u ++ r).length + 1) (u ++ r) (Nat.lt_succ_self _)
  have ht := (hread t r).mpr ⟨u, rfl, h⟩
  have ht' := (hread t' r').mpr ⟨u', he, h'⟩
  rw [ht, Except.ok.injEq, Prod.mk.injEq] at ht'
  obtain ⟨rfl, rfl⟩ := ht'
  exact ⟨rfl, List.append_cancel_right he, rfl⟩

end LocalStack.Aws.Protocol.Cbor
