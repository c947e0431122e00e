import LocalStack.Lib.Text

/-! IPv6 addresses as text: the three forms of RFC 4291, section 2.2, and the zone
that may follow the address. -/

namespace LocalStack.IPv6
open LocalStack.Text

/-- One to four hexadecimal digits. -/
def hextet (s : Str) : Bool := s ≠ [] ∧ s.length ≤ 4 ∧ ∀ c ∈ s, (hexVal c).isSome = true

/-- A decimal number below 256 without leading zeros. -/
def octet (s : Str) : Bool :=
  s ≠ [] ∧ s.length ≤ 3 ∧ (∀ c ∈ s, c.isDigit = true) ∧ (s.head? = some '0' → s = ['0']) ∧
    Nat.ofDigitChars 10 s 0 < 256

/-- Four numbers with dots between them. -/
def dottedQuad (s : Str) : Bool := (s.splitOn '.').length = 4 ∧ ∀ o ∈ s.splitOn '.', octet o = true

/-- How many groups of 16 bits the pieces stand for, if they are well formed. The
last one can be a dotted quad, which is two groups. -/
def groups : List Str → Option Nat
  | [] => some 0
  | [s] => if hextet s then some 1 else if dottedQuad s then some 2 else none
  | s :: t => if hextet s then (groups t).map (· + 1) else none

/-- The pieces between the colons; no text has no piece. -/
def pieces (s : Str) : List Str := if s = [] then [] else s.splitOn ':'

/-- The texts before and after the first `::`. -/
def splitCompressed : Str → Option (Str × Str)
  | ':' :: ':' :: s => some ([], s)
  | c :: s => (splitCompressed s).map fun p => (c :: p.1, p.2)
  | [] => none

/-- An address without a zone. -/
def address (s : Str) : Bool :=
  match splitCompressed s with
  | none => groups (s.splitOn ':') = some 8
  | some (hi, lo) =>
    (∀ t ∈ pieces hi, hextet t = true) ∧ ∃ n ∈ groups (pieces lo), (pieces hi).length + n < 8

/-- `ipaddress.IPv6Address(s)` succeeds: the zone is any text without `%` and `/`. -/
def IPv6Address (s : Str) : Bool :=
  match partition '%' s with
  | (a, [], _) => address a
  | (a, _, zone) => address a ∧ zone ≠ [] ∧ '%' ∉ zone ∧ '/' ∉ zone

/-- What a zone identifier is made of where addresses stand in brackets. -/
def zoneChar (c : Char) : Bool := c.isAlphanum || c ∈ ['-', '.', '_', '~']

/-- An IPv6 literal: an address, perhaps with a zone. -/
def literal (s : Str) : Bool :=
  match partition '%' s with
  | (a, [], _) => address a
  | (a, _, zone) => address a ∧ zone ≠ [] ∧ ∀ c ∈ zone, zoneChar c = true

example : literal "::".toList ∧ literal "2001:db8::8:800:200C:417A".toList ∧
    literal "::ffff:192.168.0.1".toList ∧ literal "fe80::1%eth0".toList ∧
    ¬literal "1::2::3".toList ∧ ¬literal "::192.168.00.1".toList ∧ ¬literal "0.0.0.0".toList ∧
    ¬literal "1:2:3:4:5:6:7".toList ∧ literal "1:2:3:4:5:6:7::".toList := by decide +kernel

/-- What addresses are made of. -/
def addressChar (c : Char) : Bool := (hexVal c).isSome || c.isDigit || c = '.' || c = ':'

theorem mem_splitOn {sep c : Char} {s : Str} (h : c ∈ s) :
    c = sep ∨ ∃ t ∈ s.splitOn sep, c ∈ t := by
  induction s with
  | nil => simp at h
  | cons x s ih =>
    rw [List.splitOn_cons_eq_if_modifyHead]
    obtain ⟨t, ts, hts⟩ := List.exists_cons_of_ne_nil (List.splitOn_ne_nil sep s)
    rw [hts] at ih ⊢
    rcases List.mem_cons.mp h with rfl | h
    · by_cases hx : c = sep
      · exact .inl hx
      · exact .inr ⟨c :: t, by simp [hx], by simp⟩
    · rcases ih h with hc | ⟨u, hu, hc⟩
      · exact .inl hc
      · by_cases hx : x = sep
        · exact .inr ⟨u, by simp [hx, hu], hc⟩
        · rcases List.mem_cons.mp hu with rfl | hu
          · exact .inr ⟨x :: u, by simp [hx], List.mem_cons_of_mem x hc⟩
          · exact .inr ⟨u, by simp [hx, hu], hc⟩

theorem addressChar_of_hextet {s : Str} (h : hextet s = true) : ∀ c ∈ s, addressChar c = true := by
  intro c hc
  simp only [hextet, decide_eq_true_eq] at h
  simp [addressChar, h.2.2 c hc]

theorem addressChar_of_dottedQuad {s : Str} (h : dottedQuad s = true) :
    ∀ c ∈ s, addressChar c = true := by
  intro c hc
  simp only [dottedQuad, decide_eq_true_eq] at h
  rcases @mem_splitOn '.' c s hc with rfl | ⟨t, ht, hc⟩
  · decide
  · have hoctet := h.2 t ht
    simp only [octet, decide_eq_true_eq] at hoctet
    simp [addressChar, hoctet.2.2.1 c hc]

theorem addressChar_of_groups {l : List Str} {n : Nat} (h : groups l = some n) :
    ∀ s ∈ l, ∀ c ∈ s, addressChar c = true := by
  induction l generalizing n with
  | nil => simp
  | cons s t ih =>
    cases t with
    | nil =>
      simp only [groups] at h
      simp only [List.mem_singleton, forall_eq]
      split at h
      · exact addressChar_of_hextet (by assumption)
      · split at h
        · exact addressChar_of_dottedQuad (by assumption)
        · cases h
    | cons u t =>
      rw [groups] at h
      · split at h
        · obtain ⟨m, hm, -⟩ := Option.map_eq_some_iff.mp h
          exact List.forall_mem_cons.mpr ⟨addressChar_of_hextet (by assumption), ih hm⟩
        · cases h
      · simp

theorem splitCompressed_eq {s hi lo : Str} (h : splitCompressed s = some (hi, lo)) :
    s = hi ++ ':' :: ':' :: lo := by
  fun_induction splitCompressed s generalizing hi with
  | case1 s =>
    cases h
    rfl
  | case2 c s hne ih =>
    obtain ⟨p, hp, he⟩ := Option.map_eq_some_iff.mp h
    cases he
    rw [ih hp, List.cons_append]
  | case3 => cases h

theorem addressChar_of_pieces {s : Str} (h : ∀ t ∈ pieces s, ∀ c ∈ t, addressChar c = true) :
    ∀ c ∈ s, addressChar c = true := by
  intro c hc
  rw [pieces, if_neg (List.ne_nil_of_mem hc)] at h
  rcases @mem_splitOn ':' c s hc with rfl | ⟨t, ht, hct⟩
  · decide
  · exact h t ht c hct

theorem addressChar_of_address {s : Str} (h : address s = true) :
    ∀ c ∈ s, addressChar c = true := by
  unfold address at h
  split at h
  · rw [decide_eq_true_eq] at h
    apply addressChar_of_pieces
    intro t ht
    rw [pieces] at ht
    split at ht
    · simp at ht
    · exact addressChar_of_groups h t ht
  · rename_i hi lo hs
    rw [decide_eq_true_eq] at h
    obtain ⟨hhi, n, hn, -⟩ := h
    rw [splitCompressed_eq hs]
    intro c hc
    simp only [List.mem_append, List.mem_cons] at hc
    rcases hc with hc | rfl | rfl | hc
    · exact addressChar_of_pieces (fun t ht => addressChar_of_hextet (hhi t ht)) c hc
    · decide
    · decide
    · exact addressChar_of_pieces (addressChar_of_groups hn) c hc

theorem colon_mem_of_address {s : Str} (h : address s = true) : ':' ∈ s := by
  unfold address at h
  split at h
  · by_contra hc
    rw [decide_eq_true_eq, List.splitOn_eq_singleton hc, groups] at h
    split_ifs at h <;> simp at h
  · rename_i hi lo hs
    simp [splitCompressed_eq hs]

/-! ## Literals -/

theorem zoneChar_ne {c : Char} (h : zoneChar c = true) : c ≠ '%' ∧ c ≠ '/' ∧ c ≠ ']' := by
  refine ⟨?_, ?_, ?_⟩ <;> rintro rfl <;> exact absurd h (by decide)

theorem accepted_of_literal {s : Str} (h : literal s = true) : IPv6Address s = true := by
  unfold literal at h
  unfold IPv6Address
  rcases partition_cases '%' s with ⟨-, hp⟩ | ⟨a, zone, -, -, hp⟩
  · rw [hp] at h ⊢
    exact h
  · rw [hp] at h ⊢
    simp only [decide_eq_true_eq] at h ⊢
    obtain ⟨ha, hne, hzone⟩ := h
    exact ⟨ha, hne, fun hc => (zoneChar_ne (hzone _ hc)).1 rfl,
      fun hc => (zoneChar_ne (hzone _ hc)).2.1 rfl⟩

theorem bracket_not_mem_of_literal {s : Str} (h : literal s = true) : ']' ∉ s := by
  have haddress : ∀ a : Str, address a = true → ']' ∉ a := fun a ha hc =>
    absurd (addressChar_of_address ha _ hc) (by decide)
  unfold literal at h
  rcases partition_cases '%' s with ⟨-, hp⟩ | ⟨a, zone, -, rfl, hp⟩
  · rw [hp] at h
    exact haddress s h
  · rw [hp] at h
    simp only [decide_eq_true_eq] at h
    obtain ⟨ha, -, hzone⟩ := h
    intro hc
    simp only [List.mem_append, List.mem_cons] at hc
    rcases hc with hc | hc | hc
    · exact haddress a ha hc
    · exact absurd hc (by decide)
    · exact (zoneChar_ne (hzone _ hc)).2.2 rfl

theorem colon_mem_of_accepted {s : Str} (h : IPv6Address s = true) : ':' ∈ s := by
  unfold IPv6Address at h
  rcases partition_cases '%' s with ⟨-, hp⟩ | ⟨a, zone, -, rfl, hp⟩
  · rw [hp] at h
    exact colon_mem_of_address h
  · rw [hp] at h
    simp only [decide_eq_true_eq] at h
    exact List.mem_append_left _ (colon_mem_of_address h.1)

end LocalStack.IPv6
