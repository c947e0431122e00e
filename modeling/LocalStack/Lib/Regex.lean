import LocalStack.Lib.OrderedDict
import LocalStack.Lib.Text

/-! Backtracking regular expressions as lists of successes: all ways to match a
pattern at the start of a text, the preferred one first. Only the greedy forms that
the code uses are there. -/

namespace LocalStack.Regex
open LocalStack.OrderedDict LocalStack.Text

/-- `chars p min max` is a greedy repetition of a character class, and `endOfText`
is `$` without the multiline flag. -/
inductive Pattern
  | chars (p : Char → Bool) (min : Nat) (max : Option Nat)
  | lit (t : Str)
  | seq (r r' : Pattern)
  | group (i : Nat) (r : Pattern)
  | optional (r : Pattern)
  | endOfText

/-- What is left of the text, and the groups that have matched. -/
structure Match where
  rest : Str
  groups : Dict Nat Str
  deriving DecidableEq, Repr

namespace Pattern

/-- How many characters a repetition can take. -/
def reach (p : Char → Bool) (max : Option Nat) (s : Str) : Nat :=
  match max with
  | none => (s.takeWhile p).length
  | some m => min m (s.takeWhile p).length

def run : Pattern → Str → Dict Nat Str → List Match
  | chars p min max, s, g =>
    ((List.range (reach p max s + 1)).reverse.filter (min ≤ ·)).map fun k => ⟨s.drop k, g⟩
  | lit t, s, g => if t.isPrefixOf s then [⟨s.drop t.length, g⟩] else []
  | seq r r', s, g => (r.run s g).flatMap fun m => r'.run m.rest m.groups
  | group i r, s, g =>
    (r.run s g).map fun m => ⟨m.rest, m.groups.set i (s.take (s.length - m.rest.length))⟩
  | optional r, s, g => r.run s g ++ [⟨s, g⟩]
  | endOfText, s, g => if s = [] ∨ s = ['\n'] then [⟨s, g⟩] else []

/-- `re.match(r, s)`. -/
def match_ (r : Pattern) (s : Str) : Option Match := (r.run s []).head?

variable {p : Char → Bool} {lo : Nat} {hi : Option Nat} {r r' : Pattern} {s t : Str}
  {g : Dict Nat Str} {m : Match} {i : Nat}

theorem run_chars : (chars p lo hi).run s g =
    ((List.range (reach p hi s + 1)).reverse.filter (lo ≤ ·)).map fun k => ⟨s.drop k, g⟩ := rfl

theorem run_lit : (lit t).run s g = if t.isPrefixOf s then [⟨s.drop t.length, g⟩] else [] := rfl

theorem run_seq : (seq r r').run s g = (r.run s g).flatMap fun m => r'.run m.rest m.groups := rfl

theorem run_group : (group i r).run s g =
    (r.run s g).map fun m => ⟨m.rest, m.groups.set i (s.take (s.length - m.rest.length))⟩ := rfl

theorem run_optional : (optional r).run s g = r.run s g ++ [⟨s, g⟩] := rfl

theorem run_endOfText : endOfText.run s g = if s = [] ∨ s = ['\n'] then [⟨s, g⟩] else [] := rfl

theorem mem_of_match (h : r.match_ s = some m) : m ∈ r.run s [] :=
  List.mem_of_head? h

theorem match_isSome : (r.match_ s).isSome ↔ ∃ m, m ∈ r.run s [] := by
  cases h : r.run s [] with
  | nil => simp [match_, h]
  | cons m ms => exact iff_of_true (by simp [match_, h]) ⟨m, by simp⟩

theorem le_takeWhile_length (p : Char → Bool) (s : Str) (k : Nat) :
    k ≤ (s.takeWhile p).length ↔ k ≤ s.length ∧ ∀ c ∈ s.take k, p c = true := by
  induction s generalizing k with
  | nil => simp
  | cons c s ih =>
    cases k with
    | zero => simp
    | succ k =>
      by_cases hc : p c = true
      · simp [hc, ih]
      · simp [hc]

theorem le_reach (p : Char → Bool) (max : Option Nat) (s : Str) (k : Nat) :
    k ≤ reach p max s ↔ (∀ m, max = some m → k ≤ m) ∧ k ≤ s.length ∧
      ∀ c ∈ s.take k, p c = true := by
  rw [← le_takeWhile_length]
  cases max with
  | none => simp [reach]
  | some m => simp only [reach, Nat.le_min, Option.some.injEq, forall_eq']

/-- A repetition takes some characters of its class. -/
theorem mem_run_chars : m ∈ (chars p lo hi).run s g ↔
    ∃ t, s = t ++ m.rest ∧ m.groups = g ∧ lo ≤ t.length ∧ (∀ n, hi = some n → t.length ≤ n) ∧
      ∀ c ∈ t, p c = true := by
  simp only [run_chars, List.mem_map, List.mem_filter, List.mem_reverse, List.mem_range,
    Nat.lt_succ_iff, le_reach, decide_eq_true_eq]
  constructor
  · rintro ⟨k, ⟨⟨hmax, hlen, hall⟩, hmin⟩, rfl⟩
    have hk : (s.take k).length = k := by simp [hlen]
    exact ⟨s.take k, by simp, rfl, by omega, fun n hn => by rw [hk]; exact hmax n hn, hall⟩
  · rintro ⟨t, rfl, rfl, hmin, hmax, hall⟩
    refine ⟨t.length, ⟨⟨hmax, by simp, ?_⟩, hmin⟩, by simp⟩
    simpa using hall

theorem mem_run_lit : m ∈ (lit t).run s g ↔ s = t ++ m.rest ∧ m.groups = g := by
  rw [run_lit]
  split
  · rename_i h
    obtain ⟨u, rfl⟩ := List.isPrefixOf_iff_prefix.mp h
    simp only [List.drop_left, List.mem_singleton, List.append_cancel_left_eq]
    constructor
    · rintro rfl
      exact ⟨rfl, rfl⟩
    · rintro ⟨rfl, rfl⟩
      rfl
  · rename_i h
    refine iff_of_false (by simp) ?_
    rintro ⟨rfl, -⟩
    exact h (List.isPrefixOf_iff_prefix.mpr ⟨m.rest, rfl⟩)

theorem mem_run_seq : m ∈ (seq r r').run s g ↔
    ∃ m' ∈ r.run s g, m ∈ r'.run m'.rest m'.groups := by
  simp [run_seq]

theorem mem_run_optional : m ∈ (optional r).run s g ↔ m ∈ r.run s g ∨ m = ⟨s, g⟩ := by
  simp [run_optional]

theorem mem_run_endOfText : m ∈ endOfText.run s g ↔ (s = [] ∨ s = ['\n']) ∧ m = ⟨s, g⟩ := by
  rw [run_endOfText]
  split
  · rename_i h
    simp [h]
  · rename_i h
    simp [h]

/-- A match takes a beginning of the text. -/
theorem rest_suffix (h : m ∈ r.run s g) : m.rest <:+ s := by
  induction r generalizing s g m with
  | chars p lo hi =>
    obtain ⟨t, rfl, -⟩ := mem_run_chars.mp h
    exact List.suffix_append t m.rest
  | lit t =>
    obtain ⟨rfl, -⟩ := mem_run_lit.mp h
    exact List.suffix_append t m.rest
  | seq r r' ih ih' =>
    obtain ⟨m', hm', hm⟩ := mem_run_seq.mp h
    exact (ih' hm).trans (ih hm')
  | group i r ih =>
    obtain ⟨m', hm', rfl⟩ := List.mem_map.mp h
    exact @ih s g m' hm'
  | optional r ih =>
    rcases mem_run_optional.mp h with h | rfl
    · exact ih h
    · exact List.suffix_rfl
  | endOfText =>
    obtain ⟨-, rfl⟩ := mem_run_endOfText.mp h
    exact List.suffix_rfl

/-- A group holds the text that its pattern has taken. -/
theorem mem_run_group : m ∈ (group i r).run s g ↔
    ∃ m' ∈ r.run s g, ∃ t, s = t ++ m'.rest ∧ m = ⟨m'.rest, m'.groups.set i t⟩ := by
  simp only [run_group, List.mem_map]
  constructor
  · rintro ⟨m', hm', rfl⟩
    obtain ⟨t, rfl⟩ := rest_suffix hm'
    exact ⟨m', hm', t, rfl, by simp⟩
  · rintro ⟨m', hm', t, rfl, rfl⟩
    exact ⟨m', hm', by simp⟩

theorem mem_run_group_chars : m ∈ (group i (chars p lo hi)).run s g ↔
    ∃ t, s = t ++ m.rest ∧ m.groups = g.set i t ∧ lo ≤ t.length ∧
      (∀ n, hi = some n → t.length ≤ n) ∧ ∀ c ∈ t, p c = true := by
  rw [mem_run_group]
  constructor
  · rintro ⟨m', hm', t, hs, rfl⟩
    obtain ⟨t', hs', hg, hlo, hhi, hall⟩ := mem_run_chars.mp hm'
    obtain rfl := List.append_cancel_right (hs.symm.trans hs')
    exact ⟨t, hs, by rw [hg], hlo, hhi, hall⟩
  · obtain ⟨rest, groups⟩ := m
    rintro ⟨t, hs, rfl, hlo, hhi, hall⟩
    exact ⟨⟨rest, g⟩, mem_run_chars.mpr ⟨t, hs, rfl, hlo, hhi, hall⟩, t, hs, rfl⟩

/-- No part of the pattern is a group. -/
def GroupFree : Pattern → Prop
  | seq r r' => r.GroupFree ∧ r'.GroupFree
  | group _ _ => False
  | optional r => r.GroupFree
  | _ => True

theorem groups_of_groupFree (h : m ∈ r.run s g) (hr : r.GroupFree) : m.groups = g := by
  induction r generalizing s g m with
  | chars p lo hi =>
    obtain ⟨_, -, hg, -⟩ := mem_run_chars.mp h
    exact hg
  | lit t => exact (mem_run_lit.mp h).2
  | seq r r' ih ih' =>
    obtain ⟨m', hm', hm⟩ := mem_run_seq.mp h
    exact (ih' hm hr.2).trans (ih hm' hr.1)
  | group i r ih => exact hr.elim
  | optional r ih =>
    rcases mem_run_optional.mp h with h | rfl
    · exact ih h hr
    · rfl
  | endOfText =>
    obtain ⟨-, rfl⟩ := mem_run_endOfText.mp h
    rfl

/-- A class repeated exactly `n` times. -/
theorem match_chars_isSome {n : Nat} : ((chars p n (some n)).match_ s).isSome ↔
    n ≤ s.length ∧ ∀ c ∈ s.take n, p c = true := by
  rw [match_isSome]
  constructor
  · rintro ⟨m, hm⟩
    obtain ⟨t, rfl, -, hlo, hhi, hall⟩ := mem_run_chars.mp hm
    have hlen : t.length = n := Nat.le_antisymm (hhi n rfl) hlo
    subst hlen
    simpa using hall
  · rintro ⟨hlen, hall⟩
    refine ⟨⟨s.drop n, []⟩, mem_run_chars.mpr ⟨s.take n, by simp, rfl, ?_, ?_, hall⟩⟩
    · simp [hlen]
    · intro k hk
      cases hk
      exact List.length_take_le n s

/-! ## The preferred match -/

theorem head?_lit (u : Str) : ((lit t).run (t ++ u) g).head? = some ⟨u, g⟩ := by
  simp [run_lit]

theorem run_lit_eq_nil (h : ¬ t <+: s) : (lit t).run s g = [] := by
  rw [run_lit, if_neg fun h' => h (List.isPrefixOf_iff_prefix.mp h')]

/-- What the preferred match of the first pattern goes on with. -/
theorem head?_seq {m' : Match} (h : (r.run s g).head? = some m)
    (h' : (r'.run m.rest m.groups).head? = some m') : ((seq r r').run s g).head? = some m' := by
  obtain ⟨ms, hms⟩ := List.head?_eq_some_iff.mp h
  simp [run_seq, hms, h']

theorem head?_group (h : (r.run (t ++ s) g).head? = some ⟨s, g⟩) :
    ((group i r).run (t ++ s) g).head? = some ⟨s, g.set i t⟩ := by
  obtain ⟨ms, hms⟩ := List.head?_eq_some_iff.mp h
  simp [run_group, hms]

theorem head?_optional (h : (r.run s g).head? = some m) :
    ((optional r).run s g).head? = some m := by
  obtain ⟨ms, hms⟩ := List.head?_eq_some_iff.mp h
  simp [run_optional, hms]

theorem head?_optional_none (h : r.run s g = []) : ((optional r).run s g).head? = some ⟨s, g⟩ := by
  simp [run_optional, h]

/-- A descending search stops at the first number that is not passed over. -/
theorem head?_flatMap_range {β : Type*} {f : Nat → List β} {k n : Nat} {b : β} (hlo : lo ≤ k)
    (hk : k < n) (hlonger : ∀ j, k < j → j < n → f j = []) (h : (f k).head? = some b) :
    (((List.range n).reverse.filter (lo ≤ ·)).flatMap f).head? = some b := by
  induction n with
  | zero => omega
  | succ n ih =>
    rw [List.range_succ, List.reverse_append, List.reverse_singleton, List.singleton_append]
    rcases Nat.lt_succ_iff_lt_or_eq.mp hk with hlt | rfl
    · have hn := hlonger n hlt (Nat.lt_succ_self n)
      have hrest := ih hlt fun j hj hjn => hlonger j hj (Nat.lt_succ_of_lt hjn)
      rw [List.filter_cons_of_pos (by simpa using by omega), List.flatMap_cons, hn,
        List.nil_append]
      exact hrest
    · rw [List.filter_cons_of_pos (by simpa using hlo), List.flatMap_cons]
      obtain ⟨bs, hbs⟩ := List.head?_eq_some_iff.mp h
      simp [hbs]

/-- A repetition takes as much as the pattern behind it allows. -/
theorem head?_seq_chars (ht : ∀ c ∈ t, p c = true) (hlo : lo ≤ t.length)
    (hlonger : ∀ t' u', t ++ s = t' ++ u' → t.length < t'.length → ∀ g, r'.run u' g = [])
    (h : (r'.run s (g.set i t)).head? = some m) :
    ((seq (group i (chars p lo none)) r').run (t ++ s) g).head? = some m := by
  have hreach : t.length ≤ reach p none (t ++ s) :=
    (le_reach _ _ _ _).mpr ⟨by simp, by simp, by simpa using ht⟩
  simp only [run_seq, run_group, run_chars, List.map_map, List.flatMap_map]
  refine head?_flatMap_range hlo (Nat.lt_succ_of_le hreach) ?_ (by simpa using h)
  intro j hj hjn
  obtain ⟨-, hjlen, -⟩ := (le_reach p none (t ++ s) j).mp (Nat.le_of_lt_succ hjn)
  refine hlonger ((t ++ s).take j) _ (List.take_append_drop j _).symm ?_ _
  rw [List.length_take, Nat.min_eq_left hjlen]
  exact hj

/-- A repetition that cannot be longer. -/
theorem head?_chars (ht : ∀ c ∈ t, p c = true) (hlo : lo ≤ t.length)
    (hhi : ∀ n, hi = some n → t.length ≤ n) (hs : ∀ c ∈ s.head?, p c = false) :
    ((chars p lo hi).run (t ++ s) g).head? = some ⟨s, g⟩ := by
  have htake : (t ++ s).takeWhile p = t := by
    rw [List.takeWhile_append_of_pos ht]
    cases s with
    | nil => simp
    | cons c s => simp [hs c rfl]
  have hreach : reach p hi (t ++ s) = t.length := by
    cases hi with
    | none => simp [reach, htake]
    | some n =>
      rw [reach, htake]
      exact Nat.min_eq_right (hhi n rfl)
  have := @head?_flatMap_range lo Match (fun k => [⟨(t ++ s).drop k, g⟩]) t.length
    (t.length + 1) ⟨s, g⟩ hlo (Nat.lt_succ_self _) (fun j hj hjn => by omega) (by simp)
  rw [run_chars, hreach]
  rwa [List.map_eq_flatMap]

end Pattern

/-! ## Character classes -/

/-- `[0-9]`. -/
def asciiDigit (c : Char) : Bool := '0' ≤ c ∧ c ≤ '9'

/-- The first characters of the runs of ten decimal digits in Unicode 15.1. -/
def decimalZeros : List Nat :=
  [0x30, 0x660, 0x6f0, 0x7c0, 0x966, 0x9e6, 0xa66, 0xae6, 0xb66, 0xbe6, 0xc66, 0xce6, 0xd66,
   0xde6, 0xe50, 0xed0, 0xf20, 0x1040, 0x1090, 0x17e0, 0x1810, 0x1946, 0x19d0, 0x1a80, 0x1a90,
   0x1b50, 0x1bb0, 0x1c40, 0x1c50, 0xa620, 0xa8d0, 0xa900, 0xa9d0, 0xa9f0, 0xaa50, 0xabf0,
   0xff10, 0x104a0, 0x10d30, 0x11066, 0x110f0, 0x11136, 0x111d0, 0x112f0, 0x11450, 0x114d0,
   0x11650, 0x116c0, 0x11730, 0x118e0, 0x11950, 0x11c50, 0x11d50, 0x11da0, 0x11f50, 0x16a60,
   0x16ac0, 0x16b50, 0x1d7ce, 0x1d7d8, 0x1d7e2, 0x1d7ec, 0x1d7f6, 0x1e140, 0x1e2f0, 0x1e4f0,
   0x1e950, 0x1fbf0]

/-- `\d` in a text pattern: the decimal digits of all scripts. -/
def digit (c : Char) : Bool := decimalZeros.any fun z => z ≤ c.toNat ∧ c.toNat < z + 10

/-- `.` without the dotall flag. -/
def dot (c : Char) : Bool := c ≠ '\n'

theorem digit_of_asciiDigit {c : Char} (h : asciiDigit c = true) : digit c = true := by
  simp only [asciiDigit, decide_eq_true_eq] at h
  obtain ⟨hlo, hhi⟩ := h
  have hlo' : 48 ≤ c.toNat := hlo
  have hhi' : c.toNat ≤ 57 := hhi
  refine List.any_eq_true.mpr ⟨0x30, by simp [decimalZeros], ?_⟩
  simp only [decide_eq_true_eq]
  omega

end LocalStack.Regex
