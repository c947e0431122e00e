import LocalStack.Aws.Protocol.OpRouter
import Mathlib.Data.List.Infix

/-! Names of path parameters of `aws/protocol/routing.py`: how they are escaped for the rules, and
read back. -/

namespace LocalStack.Aws.Protocol.RuleVars
open LocalStack.Aws.Protocol.OpRouter LocalStack.Text

/-! ## Names -/

def placeholder : Str := ['_', '0', '_']

/-- A name over letters, digits, dashes and underscores without the placeholder. -/
structure ParamName where
  text : Str
  legal : ∀ c ∈ text, c.isAlphanum = true ∨ c = '-' ∨ c = '_'
  free : ¬placeholder <:+: text

/-- The parameter between the braces. -/
def param (name : Str) (greedy : Bool) : Str := name ++ if greedy = true then ['+'] else []

/-- The variable in a rule. -/
def ruleVar (variable_name : Str) (greedy : Bool) : Str :=
  (if greedy = true then "<path:".toList else ['<']) ++ variable_name ++ ['>']

/-- The variable of a name has no dash and is read back as the name. -/
structure Reversible (name : ParamName) (greedy : Bool) (variable_name : Str) : Prop where
  transform : transform_path_params_to_rule_vars (param name.text greedy) =
    ruleVar variable_name greedy
  dash_not_mem : '-' ∉ variable_name
  post_process : post_process_arg_name variable_name = name.text

/-- Two names are reversible, and have different variables if they are different. -/
def Escapes (a b : ParamName) : Prop :=
  ∀ greedy greedy', ∃ variable_name variable_name', Reversible a greedy variable_name ∧
    Reversible b greedy' variable_name' ∧ (variable_name = variable_name' → a.text = b.text)

/-! ## Escaping -/

def escape (name : Str) : Str := name.flatMap fun c => if c = '-' then placeholder else [c]

theorem replace_dash (name : Str) : replace "-".toList "_0_".toList name = escape name :=
  replace_singleton '-' placeholder name

theorem plus_not_mem (name : ParamName) : '+' ∉ name.text := by
  intro h
  rcases name.legal '+' h with hc | hc | hc
  · exact absurd hc (by decide)
  · exact absurd hc (by decide)
  · exact absurd hc (by decide)

theorem strip_concat {c : Char} {s : Str} (h : c ∉ s) : strip c (s ++ [c]) = s := by
  cases s with
  | nil => simp [strip, rstrip]
  | cons x s =>
    rw [List.mem_cons, not_or] at h
    have hfront : (x :: s ++ [c]).dropWhile (· = c) = x :: s ++ [c] := by
      rw [List.cons_append, List.dropWhile_cons_of_neg (by simpa using Ne.symm h.1)]
    rw [strip, hfront, rstrip, List.rdropWhile_concat_pos _ _ _ (by simp),
      List.rdropWhile_eq_self_iff]
    intro hne hlast
    have hmem := List.getLast_mem hne
    rw [of_decide_eq_true hlast] at hmem
    exact (List.mem_cons.mp hmem).elim h.1 h.2

theorem transform_param (name : ParamName) (greedy : Bool) :
    transform_path_params_to_rule_vars (param name.text greedy) =
      ruleVar (escape name.text) greedy := by
  have hplus := plus_not_mem name
  rw [transform_path_params_to_rule_vars, param]
  cases greedy with
  | false =>
    have hlast : name.text.getLast? ≠ some '+' := fun h => hplus (List.mem_of_getLast? h)
    rw [if_neg Bool.false_ne_true, List.append_nil, if_neg hlast, replace_dash]
    rfl
  | true =>
    have hstrip : strip '+' (name.text ++ ['+']) = name.text := strip_concat hplus
    rw [if_pos rfl, if_pos (List.getLast?_concat ..), hstrip, replace_dash]
    rfl

theorem dash_not_mem_escape (name : Str) : '-' ∉ escape name := by
  intro h
  obtain ⟨c, -, hc⟩ := List.mem_flatMap.mp h
  split at hc
  · exact absurd hc (by decide)
  · next hne => exact hne (List.mem_singleton.mp hc).symm

/-- What comes before a dash, so that the placeholder begins one character too early. -/
def clash : Str := ['_', '0', '-']

/-- The placeholder begins in the variable where it begins in the name, or a clash does. -/
theorem placeholder_prefix_escape {s : Str} :
    placeholder <+: '_' :: escape s ↔ placeholder <+: '_' :: s ∨ clash <+: '_' :: s := by
  cases s with
  | nil => decide
  | cons c s =>
    by_cases hc : c = '-'
    · simp [hc, escape, placeholder, clash]
    · cases s with
      | nil => simp [hc, escape, placeholder, clash]
      | cons d s =>
        by_cases hd : d = '-'
        · simp [hc, hd, escape, placeholder, clash]
        · simp [hc, hd, Ne.symm hd, escape, placeholder, clash]

/-- Names are read back just when they contain no clash. -/
theorem replace_escape {s : Str} (hfree : ¬placeholder <:+: s) :
    replace placeholder ['-'] (escape s) = s ↔ ¬clash <:+: s := by
  induction s with
  | nil => decide
  | cons c s ih =>
    rw [List.infix_cons_iff, not_or] at hfree
    have ih := ih hfree.2
    rw [List.infix_cons_iff, not_or]
    by_cases hc : c = '-'
    · have hcons : escape (c :: s) = placeholder ++ escape s := by simp [escape, hc]
      have hclash : ¬clash <+: c :: s := by simp [hc, clash]
      rw [hcons, replace_append_self (by decide), hc, List.singleton_append, List.cons_inj_right,
        ih]
      exact (and_iff_right (hc ▸ hclash)).symm
    · have hcons : escape (c :: s) = c :: escape s := by simp [escape, hc]
      rw [hcons]
      by_cases hp : placeholder <+: c :: escape s
      · -- the placeholder is found in front of the one that was written
        have hunderscore : c = '_' := (List.cons_prefix_cons.mp hp).1.symm
        obtain ⟨u, hu⟩ := hp
        constructor
        · intro h
          rw [← hu, replace_append_self (by decide)] at h
          exact absurd (List.cons.inj h).1.symm hc
        · rintro ⟨hclash, -⟩
          rw [hunderscore] at hfree hclash hu
          rcases placeholder_prefix_escape.mp ⟨u, hu⟩ with h | h
          · exact absurd h hfree.1
          · exact absurd h hclash
      · have hclash : ¬clash <+: c :: s := by
          intro h
          have hunderscore : c = '_' := (List.cons_prefix_cons.mp h).1.symm
          rw [hunderscore] at hp h
          exact hp (placeholder_prefix_escape.mpr (.inr h))
        rw [replace_cons_unmatched _ hp, List.cons_inj_right, ih]
        exact (and_iff_right hclash).symm

theorem reversible_iff (name : ParamName) (greedy : Bool) :
    (∃ variable_name, Reversible name greedy variable_name) ↔ ¬clash <:+: name.text := by
  rw [← replace_escape name.free]
  constructor
  · rintro ⟨variable_name, h⟩
    have hvar : variable_name = escape name.text := by
      have htransform := h.transform
      rw [transform_param, ruleVar, ruleVar, List.append_cancel_right_eq,
        List.append_cancel_left_eq] at htransform
      exact htransform.symm
    rw [← hvar]
    exact h.post_process
  · exact fun h => ⟨_, transform_param name greedy, dash_not_mem_escape name.text, h⟩

/-- Two names are escaped as they should be just when neither has a clash. -/
theorem escapes_iff (a b : ParamName) :
    Escapes a b ↔ ¬clash <:+: a.text ∧ ¬clash <:+: b.text := by
  constructor
  · intro h
    obtain ⟨v, v', ha, hb, -⟩ := h false false
    exact ⟨(reversible_iff a false).mp ⟨v, ha⟩, (reversible_iff b false).mp ⟨v', hb⟩⟩
  · rintro ⟨ha, hb⟩ greedy greedy'
    obtain ⟨v, hv⟩ := (reversible_iff a greedy).mpr ha
    obtain ⟨v', hv'⟩ := (reversible_iff b greedy').mpr hb
    refine ⟨v, v', hv, hv', fun h => ?_⟩
    rw [← hv.post_process, h, hv'.post_process]

/-- The two names have the same variable. -/
theorem clash_not_escaped :
    ¬Escapes ⟨"_0-".toList, by decide, by decide⟩ ⟨"-0_".toList, by decide, by decide⟩ := by
  intro h
  obtain ⟨v, -, hv, -, -⟩ := h false false
  have hvar : ruleVar v false = ruleVar "_0_0_".toList false := hv.transform.symm.trans (by decide)
  rw [ruleVar, ruleVar, List.append_cancel_right_eq, List.append_cancel_left_eq] at hvar
  have hpost := hv.post_process
  rw [hvar] at hpost
  exact absurd hpost (by decide)

end LocalStack.Aws.Protocol.RuleVars
