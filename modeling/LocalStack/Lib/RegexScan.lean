import LocalStack.Lib.Regex

/-! Searching a whole text for the matches of a pattern, from left to right and without
overlaps: `re.sub`, `re.split` and `re.findall`. The patterns do not match the empty
text. -/

namespace LocalStack.Regex
open LocalStack.OrderedDict LocalStack.Text

/-- A character between two matches, or the text of a match with its groups. -/
inductive Piece
  | char (c : Char)
  | found (text : Str) (groups : Dict Nat Str)
  deriving DecidableEq, Repr

namespace Pattern

/-- The first argument is the number of characters of the last match that are still to
be skipped. -/
def scanFrom (r : Pattern) : Nat → Str → List Piece
  | _, [] => []
  | k + 1, _ :: s => scanFrom r k s
  | 0, c :: s =>
    match r.match_ (c :: s) with
    | none => .char c :: scanFrom r 0 s
    | some m =>
      .found ((c :: s).take (s.length + 1 - m.rest.length)) m.groups ::
        scanFrom r (s.length - m.rest.length) s

def scan (r : Pattern) (s : Str) : List Piece := r.scanFrom 0 s

/-- `re.sub(r, repl, s)`, where the replacement depends on the groups. -/
def sub (r : Pattern) (repl : Dict Nat Str → Str) (s : Str) : Str :=
  (r.scan s).flatMap fun
    | .char c => [c]
    | .found _ groups => repl groups

/-- The groups of the matches that `re.findall(r, s)` finds. -/
def findall (r : Pattern) (s : Str) : List (Dict Nat Str) :=
  (r.scan s).filterMap fun
    | .char _ => none
    | .found _ groups => some groups

/-- What stands between the matches. -/
def between : List Piece → List Str
  | [] => [[]]
  | .char c :: ps => (c :: (between ps).headD []) :: (between ps).tail
  | .found _ _ :: ps => [] :: between ps

/-- `re.split(r, s)` for a pattern without groups. -/
def split (r : Pattern) (s : Str) : List Str := between (r.scan s)

variable {r : Pattern} {s t : Str} {c : Char} {m : Match}

@[simp] theorem scan_nil (r : Pattern) : r.scan [] = [] := rfl

theorem scan_cons_none (h : r.match_ (c :: s) = none) : r.scan (c :: s) = .char c :: r.scan s := by
  simp only [scan, scanFrom, h]

theorem scanFrom_skip (r : Pattern) (t s : Str) : r.scanFrom t.length (t ++ s) = r.scan s := by
  induction t with
  | nil => rfl
  | cons c t ih => exact ih

/-- A match is taken, and the search goes on behind it. -/
theorem scan_found {g : Dict Nat Str} (ht : t ≠ []) (h : r.match_ (t ++ s) = some ⟨s, g⟩) :
    r.scan (t ++ s) = .found t g :: r.scan s := by
  cases t with
  | nil => exact absurd rfl ht
  | cons c t =>
    rw [List.cons_append] at h ⊢
    simp only [scan, scanFrom, h, List.length_append, Nat.add_sub_cancel]
    have hlen : t.length + s.length + 1 - s.length = t.length + 1 := by omega
    rw [hlen, List.take_succ_cons, List.take_left, scanFrom_skip, scan]

/-- Where no match begins, the characters are kept. -/
theorem scan_append_of_none (h : ∀ a b, t = a ++ b → b ≠ [] → r.match_ (b ++ s) = none) :
    r.scan (t ++ s) = t.map .char ++ r.scan s := by
  induction t with
  | nil => rfl
  | cons c t ih =>
    have hhead := h [] (c :: t) rfl (List.cons_ne_nil c t)
    have htail := ih fun a b ht hb => h (c :: a) b (by rw [ht, List.cons_append]) hb
    exact (scan_cons_none hhead).trans (by rw [List.append_eq, htail]; rfl)

variable {repl : Dict Nat Str → Str}

@[simp] theorem sub_nil (r : Pattern) (repl : Dict Nat Str → Str) : r.sub repl [] = [] := rfl

theorem sub_cons_none (h : r.match_ (c :: s) = none) :
    r.sub repl (c :: s) = c :: r.sub repl s := by
  rw [sub, scan_cons_none h]
  rfl

theorem sub_found {g : Dict Nat Str} (ht : t ≠ []) (h : r.match_ (t ++ s) = some ⟨s, g⟩) :
    r.sub repl (t ++ s) = repl g ++ r.sub repl s := by
  rw [sub, scan_found ht h]
  rfl

theorem sub_append_of_none (h : ∀ a b, t = a ++ b → b ≠ [] → r.match_ (b ++ s) = none) :
    r.sub repl (t ++ s) = t ++ r.sub repl s := by
  rw [sub, scan_append_of_none h, List.flatMap_append, List.flatMap_map]
  simp [sub]

theorem split_ne_nil (r : Pattern) (s : Str) : r.split s ≠ [] := by
  rw [split]
  cases r.scan s with
  | nil => exact List.cons_ne_nil _ _
  | cons p ps => cases p <;> exact List.cons_ne_nil _ _

/-- A text that no match begins in is the first part. -/
theorem split_append_of_none (h : ∀ a b, t = a ++ b → b ≠ [] → r.match_ (b ++ s) = none) :
    r.split (t ++ s) = (t ++ (r.split s).headD []) :: (r.split s).tail := by
  rw [split, scan_append_of_none h]
  clear h
  induction t with
  | nil =>
    cases hs : r.split s with
    | nil => exact absurd hs (split_ne_nil r s)
    | cons p ps => exact hs
  | cons c t ih =>
    rw [List.map_cons, List.cons_append, between, ih]
    rfl

theorem split_found {g : Dict Nat Str} (ht : t ≠ []) (h : r.match_ (t ++ s) = some ⟨s, g⟩) :
    r.split (t ++ s) = [] :: r.split s := by
  rw [split, scan_found ht h]
  rfl

/-- A class of single characters is searched for at each of them. -/
theorem match_single (p : Char → Bool) (c : Char) (s : Str) :
    (chars p 1 (some 1)).match_ (c :: s) = if p c = true then some ⟨s, []⟩ else none := by
  by_cases hc : p c = true
  · simp [match_, run_chars, reach, hc, List.range_succ]
  · simp [match_, run_chars, reach, hc]

theorem split_single (p : Char → Bool) (s : Str) :
    (chars p 1 (some 1)).split s = s.splitOnP p := by
  induction s with
  | nil => rfl
  | cons c s ih =>
    rw [List.splitOnP_cons_eq_if_modifyHead]
    have hmatch := match_single p c s
    split at hmatch
    · rename_i hc
      rw [if_pos hc, ← ih]
      exact @split_found _ s [c] [] (List.cons_ne_nil c []) hmatch
    · rename_i hc
      rw [if_neg hc, ← ih]
      have hone := @split_append_of_none (chars p 1 (some 1)) s [c] (by
        intro a b hab hb
        cases a with
        | nil => rw [← show [c] = b from hab]; exact hmatch
        | cons d a =>
          obtain ⟨-, hnil⟩ := List.cons.inj hab
          exact absurd (List.append_eq_nil_iff.mp hnil.symm).2 hb)
      cases hs : (chars p 1 (some 1)).split s with
      | nil => exact absurd hs (split_ne_nil _ _)
      | cons q qs => rw [hs] at hone; exact hone

/-- A pattern behind any number of characters of a class: the last place comes first. -/
theorem run_seq_chars_nil (p : Char → Bool) (r : Pattern) (g : Dict Nat Str) :
    (seq (chars p 0 none) r).run [] g = r.run [] g := by
  simp [run_seq, run_chars, reach]

theorem run_seq_chars_cons {p : Char → Bool} (hc : p c = true) (r : Pattern) (s : Str)
    (g : Dict Nat Str) : (seq (chars p 0 none) r).run (c :: s) g =
      (seq (chars p 0 none) r).run s g ++ r.run (c :: s) g := by
  have hreach : reach p none (c :: s) + 1 = (reach p none s + 1) + 1 := by
    simp [reach, hc]
  simp only [run_seq, run_chars, hreach]
  rw [List.range_succ_eq_map]
  simp [List.flatMap_map, ← List.map_reverse]

end Pattern

example : (Pattern.seq (.chars (fun c => c = ' ') 0 none) (.lit [','])).split "a , b,c".toList =
    ["a".toList, " b".toList, "c".toList] := by decide

end LocalStack.Regex
