import LocalStack.Lib.JsonSyntax
import LocalStack.Lib.RegexScan

/-! `MaskSensitiveInputFilter` of `logging/format.py`. A message is a sequence of bytes,
each of which stands here as the character with its number. -/

namespace LocalStack.Logging
open LocalStack.Fields LocalStack.JsonSyntax LocalStack.Regex LocalStack.Text

/-! ## The filter -/

/-- `"key":\s*"[^"]+"`. -/
def keyPattern (key : Str) : Pattern :=
  .seq (.lit ('"' :: (key ++ ['"', ':']))) <| .seq (.chars Decimal.isSpace 0 none) <|
    .seq (.lit ['"']) <| .seq (.chars (fun c => c ≠ '"') 1 none) (.lit ['"'])

def stars : Str := "******".toList

/-- `"key": "******"`. -/
def replacement (key : Str) : Str := quoted key ++ ": ".toList ++ quoted stars

def patterns (sensitive_keys : List Str) : List (Pattern × Str) :=
  sensitive_keys.map fun key => (keyPattern key, replacement key)

def mask_sensitive_msg (patterns : List (Pattern × Str)) (message : Str) : Str :=
  patterns.foldl (fun message p => p.1.sub (fun _ => p.2) message) message

example : mask_sensitive_msg (patterns ["my_key".toList])
    "[\"my_key\": \"sensitive_value\"]".toList = "[\"my_key\": \"******\"]".toList := by
  decide +kernel

/-! ## The message cut at its quotes -/

/-- A colon and white space. -/
def colonish : Str → Bool
  | ':' :: w => w.all Decimal.isSpace
  | _ => false

/-- A pass of one pattern. -/
def maskFragments (key : Str) : List Str → List Str
  | a :: b :: c :: d :: e :: rest =>
    if b = key ∧ colonish c = true ∧ d ≠ [] then
      a :: b :: ": ".toList :: stars :: maskFragments key (e :: rest)
    else a :: maskFragments key (b :: c :: d :: e :: rest)
  | fs => fs

theorem exists_of_colonish {c : Str} (h : colonish c = true) :
    ∃ w, c = ':' :: w ∧ ∀ x ∈ w, Decimal.isSpace x = true := by
  unfold colonish at h
  split at h
  · next w => exact ⟨w, rfl, by simpa using h⟩
  · cases h

/-- Four quotes are needed. -/
theorem maskFragments_of_length {fs : List Str} (h : fs.length < 5) (key : Str) :
    maskFragments key fs = fs := by
  unfold maskFragments
  split
  · simp only [List.length_cons] at h
    omega
  · rfl

theorem maskFragments_ne_nil (key : Str) {fs : List Str} (h : fs ≠ []) :
    maskFragments key fs ≠ [] := by
  unfold maskFragments
  split
  · split <;> exact List.cons_ne_nil _ _
  · exact h

section Pass
variable {key : Str}

/-- What a match has taken. -/
theorem exists_of_match {s : Str} {m : Match} (h : (keyPattern key).match_ s = some m) :
    ∃ w d, s = '"' :: (key ++ '"' :: ((':' :: w) ++ '"' :: (d ++ '"' :: m.rest))) ∧
      (∀ c ∈ w, Decimal.isSpace c = true) ∧ d ≠ [] ∧ '"' ∉ d := by
  obtain ⟨m₁, h₁, hrun₁⟩ := Pattern.mem_run_seq.mp (Pattern.mem_of_match h)
  obtain ⟨m₂, h₂, hrun₂⟩ := Pattern.mem_run_seq.mp hrun₁
  obtain ⟨m₃, h₃, hrun₃⟩ := Pattern.mem_run_seq.mp hrun₂
  obtain ⟨m₄, h₄, h₅⟩ := Pattern.mem_run_seq.mp hrun₃
  obtain ⟨w, hw, -, -, -, hspace⟩ := Pattern.mem_run_chars.mp h₂
  obtain ⟨d, hd, -, hlen, -, hquote⟩ := Pattern.mem_run_chars.mp h₄
  refine ⟨w, d, ?_, hspace, ?_, fun hm => by simpa using hquote '"' hm⟩
  · rw [(Pattern.mem_run_lit.mp h₁).1, hw, (Pattern.mem_run_lit.mp h₃).1, hd,
      (Pattern.mem_run_lit.mp h₅).1]
    simp
  · rintro rfl
    exact absurd hlen (by decide)

theorem match_none {c : Char} (hc : c ≠ '"') (s : Str) :
    (keyPattern key).match_ (c :: s) = none := by
  rw [Option.eq_none_iff_forall_ne_some]
  intro m hm
  obtain ⟨w, d, heq, -⟩ := exists_of_match hm
  exact hc (List.cons.inj heq).1

theorem match_found {w d : Str} (hw : ∀ c ∈ w, Decimal.isSpace c = true) (hd : d ≠ [])
    (hq : '"' ∉ d) (rest : Str) :
    (keyPattern key).match_
      ('"' :: (key ++ ['"', ':']) ++ (w ++ (['"'] ++ (d ++ (['"'] ++ rest))))) =
        some ⟨rest, []⟩ := by
  refine Pattern.head?_seq (Pattern.head?_lit _) (Pattern.head?_seq (Pattern.head?_chars hw
    (Nat.zero_le _) (by simp) ?_) (Pattern.head?_seq (Pattern.head?_lit _)
    (Pattern.head?_seq (Pattern.head?_chars ?_ (List.length_pos_of_ne_nil hd) (by simp) ?_)
      (Pattern.head?_lit _))))
  · rintro c ⟨⟩
    decide
  · intro c hc
    rw [decide_eq_true_eq]
    rintro rfl
    exact hq hc
  · rintro c ⟨⟩
    decide

/-- A text with fewer than four quotes is kept. -/
theorem sub_of_count {s : Str} (h : s.count '"' < 4) (repl : Str) :
    (keyPattern key).sub (fun _ => repl) s = s := by
  have hnone := @Pattern.sub_append_of_none (keyPattern key) [] s (fun _ => repl) (by
    intro a b hs hb
    rw [List.append_nil, Option.eq_none_iff_forall_ne_some]
    intro m hm
    obtain ⟨w, d, heq, -⟩ := exists_of_match hm
    have hsub : b.count '"' ≤ s.count '"' := by
      rw [hs, List.count_append]
      omega
    have hfour : 4 ≤ b.count '"' := by
      rw [heq]
      simp only [List.count_cons_self, List.count_append]
      omega
    omega)
  rwa [List.append_nil, Pattern.sub_nil, List.append_nil] at hnone

/-- Up to the next quote nothing is replaced. -/
theorem sub_append {a : Str} (ha : '"' ∉ a) (s repl : Str) :
    (keyPattern key).sub (fun _ => repl) (a ++ s) =
      a ++ (keyPattern key).sub (fun _ => repl) s := by
  refine Pattern.sub_append_of_none fun a' b hab hb => ?_
  cases b with
  | nil => exact absurd rfl hb
  | cons c b =>
    refine match_none ?_ _
    rintro rfl
    exact ha (by rw [hab]; simp)

/-- The pass over the text is the pass over the fragments. -/
theorem sub_join (hkey : '"' ∉ key) {fs : List Str} (hne : fs ≠ []) (h : ∀ f ∈ fs, '"' ∉ f) :
    (keyPattern key).sub (fun _ => replacement key) (join '\"' fs) =
      join '\"' (maskFragments key fs) := by
  induction fs using maskFragments.induct key with
  | case1 a b c d e rest hcond ih =>
    obtain ⟨rfl, hcolon, hd⟩ := hcond
    simp only [List.forall_mem_cons] at h ih
    obtain ⟨ha, hb, hc, hdq, he, hrest⟩ := h
    obtain ⟨w, rfl, hw⟩ := exists_of_colonish hcolon
    have htext : join '\"' (a :: b :: (':' :: w) :: d :: e :: rest) =
        a ++ (('"' :: (b ++ ['"', ':']) ++ (w ++ (['"'] ++ (d ++ ['"'])))) ++
          join '\"' (e :: rest)) := by
      rw [join_cons a (by simp), join_cons b (by simp), join_cons _ (by simp),
        join_cons d (by simp)]
      simp
    have hmatch := @match_found b w d hw hd hdq (join '\"' (e :: rest))
    rw [maskFragments, if_pos ⟨rfl, hcolon, hd⟩, htext, sub_append ha, Pattern.sub_found (by simp)
      (by simpa using hmatch), ih (by simp) ⟨he, hrest⟩, join_cons a (by simp),
      join_cons b (by simp), join_cons _ (by simp),
      join_cons stars (maskFragments_ne_nil b (by simp))]
    simp [replacement, quoted]
  | case2 a b c d e rest hcond ih =>
    simp only [List.forall_mem_cons] at h ih
    obtain ⟨ha, hb, hc, hd, he, hrest⟩ := h
    rw [maskFragments, if_neg hcond, join_cons a (by simp), sub_append ha,
      join_cons a (maskFragments_ne_nil key (by simp)), ← ih (by simp) ⟨hb, hc, hd, he, hrest⟩]
    congr 1
    refine Pattern.sub_cons_none ?_
    rw [Option.eq_none_iff_forall_ne_some]
    intro m hm
    obtain ⟨w, d', heq, hw, hd', hq⟩ := exists_of_match hm
    rw [join_cons b (by simp), join_cons c (by simp), join_cons d (by simp)] at heq
    have hwq : '"' ∉ ':' :: w := by
      rw [List.mem_cons, not_or]
      exact ⟨by decide, fun hm => absurd (hw '"' hm) (by decide)⟩
    obtain ⟨hbk, hbs⟩ := append_sep_inj hb hkey (List.cons.inj heq).2
    obtain ⟨hcw, hcs⟩ := append_sep_inj hc hwq hbs
    obtain ⟨hdd, -⟩ := append_sep_inj hd hq hcs
    exact hcond ⟨hbk, by rw [hcw]; simpa [colonish] using hw, by rw [hdd]; exact hd'⟩
  | case3 fs hshort =>
    have hlen : fs.length < 5 := by
      rcases fs with - | ⟨a, - | ⟨b, - | ⟨c, - | ⟨d, - | ⟨e, rest⟩⟩⟩⟩⟩
      iterate 5 simp
      exact (hshort a b c d e rest rfl).elim
    have hcount := count_join hne h
    rw [maskFragments_of_length hlen]
    exact sub_of_count (by omega) _

end Pass

end LocalStack.Logging
