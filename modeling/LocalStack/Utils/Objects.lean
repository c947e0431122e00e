import LocalStack.Lib.Decimal
import LocalStack.Lib.Regex
import Mathlib.Data.List.Nodup

/-! `recurse_object` and `keys_to` of `utils/objects.py` on trees of lists and dictionaries. -/

namespace LocalStack.Utils.Objects
open LocalStack.Decimal LocalStack.OrderedDict LocalStack.Regex LocalStack.Text

/-- A leaf is any object that is neither a list nor a dictionary. -/
inductive Tree (α : Type)
  | leaf (a : α)
  | list (items : List (Tree α))
  | dict (entries : List (Str × Tree α))

variable {α : Type}

/-! ## The functions -/

/-- `f"{path or '.'}[{i}]"`. -/
def indexPath (path : Str) (i : Nat) : Str :=
  (if path = [] then ['.'] else path) ++ '[' :: (natToStr i ++ [']'])

/-- `f"{f'{path}.' if path else ''}{k}"`. -/
def keyPath (path k : Str) : Str := (if path = [] then [] else path ++ ['.']) ++ k

/-- The recursion is as deep as `fuel` at most. -/
def recurse_object (func : Tree α → Str → Tree α) : Nat → Tree α → Str → Option (Tree α)
  | 0, _, _ => none
  | fuel + 1, obj, path =>
    match func obj path with
    | .leaf a => some (.leaf a)
    | .list items =>
      (items.zipIdx.mapM fun p => recurse_object func fuel p.1 (indexPath path p.2)).map .list
    | .dict entries =>
      (entries.foldlM (fun obj p =>
        (recurse_object func fuel p.2 (keyPath path p.1)).map fun v => Dict.set obj p.1 v)
        entries).map .dict

section
open Pattern

/-- `(^|.*\.)`; the match begins with the text. -/
def front : Pattern := optional (seq (chars dot 0 none) (lit ['.']))

/-- `[.\[].*`. -/
def deeper : Pattern := seq (chars (fun c => c = '.' ∨ c = '[') 1 (some 1)) (chars dot 0 none)

/-- The search for a name whose characters stand for themselves; the two ways to go on behind it
are tried in turn. -/
def skips (path k : Str) : Bool :=
  (match_ (seq front (seq (lit k) endOfText)) path).isSome ||
    (match_ (seq front (seq (lit k) deeper)) path).isSome

end

section
variable (op : Str → Str) (skip_children_of : List Str)

/-- The loop over a copy of the entries. -/
def rekey {τ : Type} (o : Dict Str τ) : Dict Str τ :=
  o.foldl (fun o p => Dict.set (Dict.erase o p.1) (op p.1) p.2) o

def fix_keys (o : Tree α) (path : Str) : Tree α :=
  if skip_children_of.any (skips path) then o
  else match o with
    | .dict entries => .dict (rekey op entries)
    | o => o

def keys_to (fuel : Nat) (obj : Tree α) : Option (Tree α) :=
  recurse_object (fix_keys op skip_children_of) fuel obj []

end

/-! ## The renamed tree -/

namespace Tree

mutual

def depth : Tree α → Nat
  | .leaf _ => 0
  | .list items => depthItems items + 1
  | .dict entries => depthEntries entries + 1
termination_by structural t => t

def depthItems : List (Tree α) → Nat
  | [] => 0
  | item :: items => max item.depth (depthItems items)
termination_by structural items => items

def depthEntries : List (Str × Tree α) → Nat
  | [] => 0
  | (_, value) :: entries => max value.depth (depthEntries entries)
termination_by structural entries => entries

end

/-- The keys of every dictionary have a property. -/
inductive EveryDict (P : List Str → Prop) : Tree α → Prop
  | leaf (a : α) : EveryDict P (.leaf a)
  | list {items : List (Tree α)} : (∀ t ∈ items, EveryDict P t) → EveryDict P (.list items)
  | dict {entries : Dict Str (Tree α)} : P (Dict.keys entries) →
    (∀ p ∈ entries, EveryDict P p.2) → EveryDict P (.dict entries)

theorem EveryDict.mono {P Q : List Str → Prop} (hpq : ∀ keys, P keys → Q keys) {t : Tree α}
    (h : t.EveryDict P) : t.EveryDict Q := by
  induction h with
  | leaf a => exact .leaf a
  | list _ ih => exact .list ih
  | dict hkeys _ ih => exact .dict (hpq _ hkeys) ih

section
variable (op : Str → Str) (skip : List Str)

mutual

/-- Each key is replaced where it stands, and what is below a skipped one stays as it is. -/
def renamed : Tree α → Tree α
  | .leaf a => .leaf a
  | .list items => .list (renamedItems items)
  | .dict entries => .dict (renamedEntries entries)
termination_by structural t => t

def renamedItems : List (Tree α) → List (Tree α)
  | [] => []
  | item :: items => item.renamed :: renamedItems items
termination_by structural items => items

def renamedEntries : List (Str × Tree α) → List (Str × Tree α)
  | [] => []
  | (k, value) :: entries =>
    (op k, if k ∈ skip then value else value.renamed) :: renamedEntries entries
termination_by structural entries => entries

end

end

end Tree

/-- None of the characters that the paths and the pattern separate the keys with. -/
def Plain (k : Str) : Prop := '.' ∉ k ∧ '[' ∉ k ∧ '\n' ∉ k

/-- A name whose characters stand for themselves in a pattern, as letters and digits do. -/
def Literal (name : Str) : Prop :=
  name ≠ [] ∧ ∀ c ∈ name, c ∉ ".^$*+?\x7b\x7d[]\\|()\n".toList

/-- The keys of a dictionary and the key function on them. -/
structure Fits (op : Str → Str) (skip : List Str) (keys : List Str) : Prop where
  nodup : keys.Nodup
  plain : ∀ k ∈ keys, Plain k
  plain_op : ∀ k ∈ keys, Plain (op k)
  idempotent : ∀ k ∈ keys, op (op k) = op k
  injective : ∀ k ∈ keys, ∀ k' ∈ keys, op k = op k' → k = k'
  skipped : ∀ k ∈ keys, op k ∈ skip ↔ k ∈ skip

/-! ## The search in a path -/

/-- The name fills the path between two of the characters that separate its parts. -/
def Occurs (k path : Str) : Prop :=
  ∃ a b, path = a ++ (k ++ b) ∧ (a = [] ∨ ∃ a', a = a' ++ ['.']) ∧
    (b = [] ∨ ∃ c b', b = c :: b' ∧ (c = '.' ∨ c = '['))

section
open Pattern
variable {s : Str} {g : Dict Nat Str} {m : Match}

theorem mem_run_dots : m ∈ (chars dot 0 none).run s g ↔
    ∃ t, s = t ++ m.rest ∧ m.groups = g ∧ '\n' ∉ t := by
  rw [mem_run_chars]
  refine exists_congr fun t => ?_
  simp only [dot, decide_eq_true_eq, Nat.zero_le, true_and, reduceCtorEq, false_implies,
    implies_true]
  refine and_congr_right fun _ => and_congr_right fun _ => ?_
  exact ⟨fun h hmem => h _ hmem rfl, fun h c hc he => h (he ▸ hc)⟩

theorem mem_run_front : m ∈ front.run s g ↔
    ∃ a, s = a ++ m.rest ∧ m.groups = g ∧ (a = [] ∨ ∃ a', a = a' ++ ['.'] ∧ '\n' ∉ a') := by
  rw [front, mem_run_optional, mem_run_seq]
  constructor
  · rintro (⟨m', hm', hm⟩ | rfl)
    · obtain ⟨t, rfl, hg', ht⟩ := mem_run_dots.mp hm'
      obtain ⟨hrest, hg⟩ := mem_run_lit.mp hm
      exact ⟨t ++ ['.'], by simp [hrest], hg.trans hg', .inr ⟨t, rfl, ht⟩⟩
    · exact ⟨[], rfl, rfl, .inl rfl⟩
  · obtain ⟨rest, groups⟩ := m
    rintro ⟨a, rfl, rfl, rfl | ⟨a', rfl, ha'⟩⟩
    · exact .inr rfl
    · exact .inl ⟨⟨'.' :: rest, groups⟩, mem_run_dots.mpr ⟨a', by simp, rfl, ha'⟩,
        mem_run_lit.mpr ⟨rfl, rfl⟩⟩

theorem mem_run_deeper (h : m ∈ deeper.run s g) : ∃ c b, s = c :: b ∧ (c = '.' ∨ c = '[') := by
  obtain ⟨m', hm', -⟩ := mem_run_seq.mp h
  obtain ⟨t, rfl, -, hlo, hhi, hall⟩ := mem_run_chars.mp hm'
  obtain ⟨c, rfl⟩ := List.length_eq_one_iff.mp (Nat.le_antisymm (hhi 1 rfl) hlo)
  exact ⟨c, m'.rest, rfl, by simpa using hall c (List.mem_singleton_self c)⟩

theorem run_deeper {c : Char} (hc : c = '.' ∨ c = '[') (b : Str) (g : Dict Nat Str) :
    ⟨b, g⟩ ∈ deeper.run (c :: b) g := by
  refine mem_run_seq.mpr ⟨⟨b, g⟩, mem_run_chars.mpr ⟨[c], rfl, rfl, ?_⟩, ?_⟩
  · simpa using hc
  · exact mem_run_dots.mpr ⟨[], rfl, rfl, by simp⟩

theorem match_isSome_iff {k path : Str} {ending : Pattern} :
    (match_ (seq front (seq (lit k) ending)) path).isSome ↔
      ∃ a b, path = a ++ (k ++ b) ∧ (a = [] ∨ ∃ a', a = a' ++ ['.'] ∧ '\n' ∉ a') ∧
        ∃ m, m ∈ ending.run b [] := by
  rw [match_isSome]
  constructor
  · rintro ⟨m, hm⟩
    obtain ⟨m1, hm1, hm⟩ := mem_run_seq.mp hm
    obtain ⟨m2, hm2, hm⟩ := mem_run_seq.mp hm
    obtain ⟨a, ha, hg1, hend⟩ := mem_run_front.mp hm1
    obtain ⟨hk, hg2⟩ := mem_run_lit.mp hm2
    rw [hg2, hg1] at hm
    exact ⟨a, m2.rest, by rw [ha, hk], hend, m, hm⟩
  · rintro ⟨a, b, rfl, hend, m, hm⟩
    refine ⟨m, mem_run_seq.mpr ⟨⟨k ++ b, []⟩, mem_run_front.mpr ⟨a, rfl, rfl, hend⟩, ?_⟩⟩
    exact mem_run_seq.mpr ⟨⟨b, []⟩, mem_run_lit.mpr ⟨rfl, rfl⟩, hm⟩

/-- On one line the pattern finds a name exactly where it occurs in the path. -/
theorem skips_iff {k path : Str} (hpath : '\n' ∉ path) : skips path k = true ↔ Occurs k path := by
  rw [skips, Bool.or_eq_true, match_isSome_iff, match_isSome_iff]
  constructor
  · rintro (⟨a, b, rfl, ha, m, hm⟩ | ⟨a, b, rfl, ha, m, hm⟩)
    all_goals refine ⟨a, b, rfl, ha.imp_right fun ⟨a', h, _⟩ => ⟨a', h⟩, ?_⟩
    · obtain ⟨rfl | rfl, -⟩ := mem_run_endOfText.mp hm
      · exact .inl rfl
      · simp at hpath
    · exact .inr (mem_run_deeper hm)
  · rintro ⟨a, b, rfl, ha, hb⟩
    have ha' : a = [] ∨ ∃ a', a = a' ++ ['.'] ∧ '\n' ∉ a' := by
      refine ha.imp_right fun ⟨a', h⟩ => ⟨a', h, fun hmem => hpath ?_⟩
      simp [h, hmem]
    rcases hb with rfl | ⟨c, b, rfl, hc⟩
    · exact .inl ⟨a, [], rfl, ha', ⟨[], []⟩, mem_run_endOfText.mpr ⟨.inl rfl, rfl⟩⟩
    · exact .inr ⟨a, c :: b, rfl, ha', ⟨b, []⟩, run_deeper hc b []⟩

end

section
variable {k : Str} (hk : Literal k)
include hk

theorem Literal.not_mem : '.' ∉ k ∧ '[' ∉ k :=
  ⟨fun h => hk.2 _ h (by decide), fun h => hk.2 _ h (by decide)⟩

theorem occurs_part {t : Str} (ht : '.' ∉ t ∧ '[' ∉ t) : Occurs k t ↔ t = k := by
  constructor
  · rintro ⟨a, b, rfl, ha, hb⟩
    rcases ha with rfl | ⟨a', rfl⟩
    · rcases hb with rfl | ⟨c, b', rfl, rfl | rfl⟩
      · simp
      · simp at ht
      · simp at ht
    · simp at ht
  · rintro rfl
    exact ⟨[], [], by simp, .inl rfl, .inl rfl⟩

/-- A name that begins behind the separator is the part behind it. -/
theorem part_of_behind {t c b : Str} {d : Char} (hdk : d ∉ k) (ht : '.' ∉ t ∧ '[' ∉ t)
    (hc : d :: t = c ++ (k ++ b)) (ha : c = [] ∨ ∃ a', c = a' ++ ['.'])
    (hb : b = [] ∨ ∃ x b', b = x :: b' ∧ (x = '.' ∨ x = '[')) : d = '.' ∧ t = k := by
  cases c with
  | nil =>
    obtain ⟨x, k', rfl⟩ := List.exists_cons_of_ne_nil hk.1
    rw [List.nil_append, List.cons_append, List.cons.injEq] at hc
    simp [hc.1] at hdk
  | cons x c =>
    rw [List.cons_append, List.cons.injEq] at hc
    obtain ⟨rfl, rfl⟩ := hc
    obtain ⟨a', ha⟩ := ha.resolve_left (List.cons_ne_nil d c)
    rcases List.eq_nil_or_concat c with rfl | ⟨c', y, rfl⟩
    · obtain ⟨-, hdot⟩ := @List.append_inj' _ [] [d] a' ['.'] ha rfl
      exact ⟨List.singleton_injective hdot,
        (occurs_part hk ht).mp ⟨[], b, rfl, .inl rfl, hb⟩⟩
    · rw [List.concat_eq_append, ← List.cons_append] at ha
      obtain ⟨-, hy⟩ := List.append_inj' ha rfl
      simp [List.singleton_injective hy] at ht

/-- A name that begins in front of a separator ends there. -/
theorem occurs_of_front {a b c t : Str} {d : Char} (hdk : d ∉ k)
    (hc : k ++ b = c ++ d :: t) (ha : a = [] ∨ ∃ a', a = a' ++ ['.'])
    (hb : b = [] ∨ ∃ x b', b = x :: b' ∧ (x = '.' ∨ x = '[')) : Occurs k (a ++ c) := by
  rcases List.append_eq_append_iff.mp hc with ⟨e, rfl, he⟩ | ⟨e, rfl, he⟩
  · refine ⟨a, e, rfl, ha, ?_⟩
    cases e with
    | nil => exact .inl rfl
    | cons x e =>
      rcases hb with rfl | ⟨y, b', rfl, hy⟩
      · simp at he
      · rw [List.cons_append, List.cons.injEq] at he
        exact .inr ⟨x, e, rfl, he.1 ▸ hy⟩
  · cases e with
    | nil => exact ⟨a, [], by simp, ha, .inl rfl⟩
    | cons x e =>
      rw [List.cons_append, List.cons.injEq] at he
      simp [he.1] at hdk

/-- A path that goes on with one more part has the names that it had, and that part. -/
theorem occurs_append {base t : Str} {d : Char} (hd : d = '.' ∨ d = '[')
    (ht : '.' ∉ t ∧ '[' ∉ t) : Occurs k (base ++ d :: t) ↔ Occurs k base ∨ d = '.' ∧ t = k := by
  have hdk : d ∉ k := by
    rcases hd with rfl | rfl
    · exact hk.not_mem.1
    · exact hk.not_mem.2
  constructor
  · rintro ⟨a, b, heq, ha, hb⟩
    rcases List.append_eq_append_iff.mp heq with ⟨c, rfl, hc⟩ | ⟨c, rfl, hc⟩
    · right
      refine part_of_behind hk hdk ht hc ?_ hb
      rcases List.eq_nil_or_concat c with rfl | ⟨c', y, rfl⟩
      · exact .inl rfl
      · rw [List.concat_eq_append, ← List.append_assoc] at ha
        obtain ⟨a', ha⟩ := ha.resolve_left (by simp)
        obtain ⟨-, hy⟩ := List.append_inj' ha rfl
        exact .inr ⟨c', by rw [List.concat_eq_append, hy]⟩
    · exact .inl (occurs_of_front hk hdk hc ha hb)
  · rintro (⟨a, b, rfl, ha, hb⟩ | ⟨rfl, rfl⟩)
    · refine ⟨a, b ++ d :: t, by simp, ha, .inr ?_⟩
      rcases hb with rfl | ⟨c, b', rfl, hc⟩
      · exact ⟨d, t, rfl, hd⟩
      · exact ⟨c, b' ++ d :: t, rfl, hc⟩
    · exact ⟨base ++ ['.'], [], by simp, .inr ⟨base, rfl⟩, .inl rfl⟩

theorem not_occurs_nil : ¬ Occurs k [] := fun h =>
  hk.1 ((occurs_part hk (by simp)).mp h).symm

theorem occurs_keyPath {path key : Str} (hkey : Plain key) :
    Occurs k (keyPath path key) ↔ Occurs k path ∨ key = k := by
  have hplain := And.intro hkey.1 hkey.2.1
  unfold keyPath
  split
  · rename_i hpath
    simp [hpath, occurs_part hk hplain, not_occurs_nil hk]
  · rw [List.append_assoc, List.singleton_append, occurs_append hk (.inl rfl) hplain]
    simp

theorem occurs_indexPath (path : Str) (i : Nat) :
    Occurs k (indexPath path i) ↔ Occurs k path := by
  have hdigits : ∀ c : Char, c.isDigit = false → c ≠ ']' → c ∉ natToStr i ++ [']'] := by
    intro c hc hne hmem
    rcases List.mem_append.mp hmem with hmem | hmem
    · simp [isDigit_of_mem_natToStr hmem] at hc
    · exact hne (List.mem_singleton.mp hmem)
  have ht := And.intro (hdigits '.' (by decide) (by decide)) (hdigits '[' (by decide) (by decide))
  rw [indexPath, occurs_append hk (.inr rfl) ht]
  split
  · rename_i hpath
    have hdot := @occurs_append k hk [] [] '.' (.inl rfl) (by simp)
    rw [List.nil_append] at hdot
    simp [hpath, hdot, not_occurs_nil hk, Ne.symm hk.1]
  · simp

end

/-! ## The dictionaries -/

section
variable {op : Str → Str} {skip : List Str} {τ : Type}

/-- The loop has moved the entries `done` behind the others. -/
theorem rekey_loop (rest done : Dict Str τ) (hrest : (Dict.keys rest).Nodup)
    (hold : ∀ k ∈ Dict.keys rest, k ∉ Dict.keys done)
    (hnew : ∀ k ∈ Dict.keys rest, op k ∉ Dict.keys done)
    (hfix : ∀ k ∈ Dict.keys rest, ∀ k' ∈ Dict.keys rest, op k = k' → k = k')
    (hinj : ∀ k ∈ Dict.keys rest, ∀ k' ∈ Dict.keys rest, op k = op k' → k = k') :
    rest.foldl (fun o p => Dict.set (Dict.erase o p.1) (op p.1) p.2) (rest ++ done) =
      done ++ rest.map fun p => (op p.1, p.2) := by
  induction rest generalizing done with
  | nil => simp
  | cons p rest ih =>
    obtain ⟨k, v⟩ := p
    simp only [Dict.keys_cons, List.nodup_cons, List.forall_mem_cons] at hrest hold hnew hfix hinj
    have herase : Dict.erase ((k, v) :: rest ++ done) k = rest ++ done := by
      have hout := Dict.erase_of_not_mem (d := rest ++ done) (k := k) (by simp [hrest.1, hold.1])
      rw [← hout]
      simp [Dict.erase]
    have hlast : op k ∉ Dict.keys (rest ++ done) := by
      rw [Dict.keys_append, List.mem_append, not_or]
      exact ⟨fun h => hrest.1 (hfix.1.2 _ h rfl ▸ h), hnew.1⟩
    rw [List.foldl_cons, herase, Dict.set_of_not_mem _ _ hlast, List.append_assoc]
    refine (ih (done ++ [(op k, v)]) hrest.2 ?_ ?_ (fun x hx => (hfix.2 x hx).2)
      (fun x hx => (hinj.2 x hx).2)).trans (by simp)
    · intro x hx
      have hne : x ≠ op k := fun h => hlast (by simp [← h, hx])
      simp [hold.2 x hx, hne]
    · intro x hx
      have hne : op x ≠ op k := fun h => hrest.1 ((hinj.2 x hx).1 h ▸ hx)
      simp [hnew.2 x hx, hne]

theorem rekey_eq {o : Dict Str τ} (h : Fits op skip (Dict.keys o)) :
    rekey op o = o.map fun p => (op p.1, p.2) := by
  have hfix : ∀ k ∈ Dict.keys o, ∀ k' ∈ Dict.keys o, op k = k' → k = k' := by
    intro k hk k' hk' heq
    refine h.injective k hk k' hk' ?_
    rw [← heq, h.idempotent k hk]
  have := rekey_loop o [] h.nodup (by simp) (by simp) hfix h.injective
  simpa [rekey] using this

theorem wf_rekey {o : Dict Str τ} (h : Fits op skip (Dict.keys o)) :
    Dict.WF (o.map fun p => (op p.1, p.2)) := by
  have hkeys : Dict.keys (o.map fun p => (op p.1, p.2)) = (Dict.keys o).map op := by
    simp [Dict.keys]
  rw [Dict.WF, hkeys]
  exact List.Nodup.map_on h.injective h.nodup

theorem set_middle (d d' : Dict Str τ) {k : Str} (v v' : τ) (h : k ∉ Dict.keys d) :
    Dict.set (d ++ (k, v) :: d') k v' = d ++ (k, v') :: d' := by
  induction d with
  | nil => simp [Dict.set]
  | cons p d ih =>
    obtain ⟨k₀, v₀⟩ := p
    rw [Dict.keys_cons, List.mem_cons, not_or] at h
    simp [Dict.set, Ne.symm h.1, ih h.2]

/-- The values are replaced one after the other, where they stand. -/
theorem foldlM_set {g : Str → τ → τ} {call : Str → τ → Option τ} (rest done : Dict Str τ)
    (hwf : Dict.WF (done ++ rest)) (hcall : ∀ p ∈ rest, call p.1 p.2 = some (g p.1 p.2)) :
    rest.foldlM (fun obj p => (call p.1 p.2).map fun v => Dict.set obj p.1 v) (done ++ rest) =
      some (done ++ rest.map fun p => (p.1, g p.1 p.2)) := by
  induction rest generalizing done with
  | nil => simp
  | cons p rest ih =>
    obtain ⟨k, v⟩ := p
    have hk : k ∉ Dict.keys done := by
      rw [Dict.WF, Dict.keys_append, Dict.keys_cons] at hwf
      exact fun h => (List.nodup_append.mp hwf).2.2 k h k (by simp) rfl
    rw [List.foldlM_cons, hcall _ (List.mem_cons_self ..)]
    simp only [Option.map_some, Option.bind_eq_bind, Option.bind_some]
    rw [set_middle _ _ _ _ hk]
    have hnext := ih (done ++ [(k, g k v)]) (by simpa [Dict.WF] using hwf)
      fun p hp => hcall p (List.mem_cons_of_mem _ hp)
    simpa using hnext

end

/-! ## The recursion -/

namespace Tree

theorem depth_le_depthItems {t : Tree α} {items : List (Tree α)} (h : t ∈ items) :
    t.depth ≤ depthItems items := by
  induction items with
  | nil => simp at h
  | cons item items ih =>
    rw [depthItems]
    rcases List.mem_cons.mp h with rfl | h
    · omega
    · have := ih h
      omega

theorem depth_le_depthEntries {p : Str × Tree α} {entries : List (Str × Tree α)}
    (h : p ∈ entries) : p.2.depth ≤ depthEntries entries := by
  induction entries with
  | nil => simp at h
  | cons entry entries ih =>
    obtain ⟨k, v⟩ := entry
    rw [depthEntries]
    rcases List.mem_cons.mp h with rfl | h
    · exact le_max_left _ _
    · exact (ih h).trans (le_max_right _ _)

variable {op : Str → Str} {skip : List Str}

theorem renamedItems_eq (items : List (Tree α)) :
    renamedItems op skip items = items.map (renamed op skip) := by
  induction items with
  | nil => rfl
  | cons item items ih => rw [renamedItems, ih, List.map_cons]

theorem renamedEntries_eq (entries : List (Str × Tree α)) : renamedEntries op skip entries =
    entries.map fun p => (op p.1, if p.1 ∈ skip then p.2 else p.2.renamed op skip) := by
  induction entries with
  | nil => rfl
  | cons entry entries ih => rw [renamedEntries, ih, List.map_cons]

end Tree

section
variable {func : Tree α → Str → Tree α} {fuel : Nat} {obj : Tree α} {path : Str}

theorem mapM_zipIdx {τ : Type} {f : τ × Nat → Option τ} {g : τ → τ} (items : List τ) (n : Nat)
    (h : ∀ t ∈ items, ∀ i, f (t, i) = some (g t)) :
    (items.zipIdx n).mapM f = some (items.map g) := by
  induction items generalizing n with
  | nil => rfl
  | cons t items ih =>
    rw [List.zipIdx_cons, List.mapM_cons, h t (List.mem_cons_self ..),
      ih (n + 1) fun t' ht' => h t' (List.mem_cons_of_mem _ ht')]
    rfl

theorem recurse_object_list {items : List (Tree α)} {g : Tree α → Tree α}
    (hfunc : func obj path = .list items)
    (hcall : ∀ t ∈ items, ∀ i, recurse_object func fuel t (indexPath path i) = some (g t)) :
    recurse_object func (fuel + 1) obj path = some (.list (items.map g)) := by
  rw [recurse_object, hfunc]
  exact congrArg (Option.map Tree.list) (mapM_zipIdx items 0 hcall)

theorem recurse_object_dict {entries : Dict Str (Tree α)} {g : Str → Tree α → Tree α}
    (hfunc : func obj path = .dict entries) (hwf : Dict.WF entries)
    (hcall : ∀ p ∈ entries, recurse_object func fuel p.2 (keyPath path p.1) =
      some (g p.1 p.2)) : recurse_object func (fuel + 1) obj path =
        some (.dict (entries.map fun p => (p.1, g p.1 p.2))) := by
  have hfold := @foldlM_set _ g (fun k v => recurse_object func fuel v (keyPath path k)) entries []
    hwf hcall
  rw [recurse_object, hfunc]
  exact congrArg (Option.map Tree.dict) hfold

end

theorem not_mem_keyPath {path k : Str} (hpath : '\n' ∉ path) (hk : Plain k) :
    '\n' ∉ keyPath path k := by
  unfold keyPath
  split <;> simp [hpath, hk.2.2]

theorem not_mem_indexPath {path : Str} (hpath : '\n' ∉ path) (i : Nat) :
    '\n' ∉ indexPath path i := by
  have hdigits : '\n' ∉ natToStr i := fun h => by simpa using isDigit_of_mem_natToStr h
  unfold indexPath
  split <;> simp [hpath, hdigits]

variable {op : Str → Str} {skip : List Str}

/-- The values of a dictionary at a path without a skipped name are reached under their new
keys. -/
theorem recurse_object_renamed {fuel : Nat} {entries : Dict Str (Tree α)} {path : Str}
    (hfits : Fits op skip (Dict.keys entries)) (hfound : ¬ skip.any (skips path) = true)
    (hvalue : ∀ p ∈ entries, ∀ k, Plain k →
      recurse_object (fix_keys op skip) fuel p.2 (keyPath path k) = some
        (if skip.any (skips path) = true ∨ k ∈ skip then p.2 else p.2.renamed op skip)) :
    recurse_object (fix_keys op skip) (fuel + 1) (.dict entries) path =
      some (Tree.renamed op skip (.dict entries)) := by
  have hfunc : fix_keys op skip (.dict entries) path =
      .dict (entries.map fun p => (op p.1, p.2)) := by
    rw [fix_keys, if_neg hfound, rekey_eq hfits]
  have hcall : ∀ p ∈ entries.map fun p => (op p.1, p.2),
      recurse_object (fix_keys op skip) fuel p.2 (keyPath path p.1) =
        some (if p.1 ∈ skip then p.2 else p.2.renamed op skip) := by
    intro p hp
    obtain ⟨q, hq, rfl⟩ := List.mem_map.mp hp
    rw [hvalue q hq _ (hfits.plain_op _ (Dict.mem_keys_of_mem hq))]
    simp only [hfound, false_or, Bool.false_eq_true]
  rw [recurse_object_dict hfunc (wf_rekey hfits) (g := fun k v =>
    if k ∈ skip then v else v.renamed op skip) hcall, Tree.renamed, Tree.renamedEntries_eq,
    List.map_map]
  refine congrArg (some ∘ Tree.dict) (List.map_congr_left fun p hp => ?_)
  simp only [Function.comp_apply, hfits.skipped _ (Dict.mem_keys_of_mem hp)]

section
variable (hskip : ∀ name ∈ skip, Literal name)
include hskip

theorem any_skips_keyPath {path k : Str} (hpath : '\n' ∉ path) (hk : Plain k) :
    skip.any (skips (keyPath path k)) = true ↔ skip.any (skips path) = true ∨ k ∈ skip := by
  simp only [List.any_eq_true, skips_iff (not_mem_keyPath hpath hk), skips_iff hpath]
  constructor
  · rintro ⟨name, hname, hocc⟩
    rcases (occurs_keyPath (hskip name hname) hk).mp hocc with hocc | rfl
    · exact .inl ⟨name, hname, hocc⟩
    · exact .inr hname
  · rintro (⟨name, hname, hocc⟩ | hname)
    · exact ⟨name, hname, (occurs_keyPath (hskip name hname) hk).mpr (.inl hocc)⟩
    · exact ⟨k, hname, (occurs_keyPath (hskip k hname) hk).mpr (.inr rfl)⟩

theorem any_skips_indexPath {path : Str} (hpath : '\n' ∉ path) (i : Nat) :
    skip.any (skips (indexPath path i)) = skip.any (skips path) := by
  rw [Bool.eq_iff_iff]
  simp only [List.any_eq_true, skips_iff (not_mem_indexPath hpath i), skips_iff hpath]
  refine exists_congr fun name => and_congr_right fun hname => ?_
  exact occurs_indexPath (hskip name hname) path i

/-- At a path that the pattern finds a name in, nothing is changed. -/
theorem recurse_object_eq (fuel : Nat) (obj : Tree α) (path : Str) (hdepth : obj.depth < fuel)
    (hpath : '\n' ∉ path) (hobj : obj.EveryDict (Fits op skip)) :
    recurse_object (fix_keys op skip) fuel obj path =
      some (if skip.any (skips path) then obj else obj.renamed op skip) := by
  induction fuel generalizing obj path with
  | zero => omega
  | succ fuel ih =>
    cases hobj with
    | leaf a => simp [recurse_object, fix_keys, Tree.renamed]
    | @list items hitems =>
      have hfunc : fix_keys op skip (.list items) path = .list items := by simp [fix_keys]
      rw [recurse_object_list hfunc (g := fun t =>
        if skip.any (skips path) then t else t.renamed op skip), Tree.renamed, Tree.renamedItems_eq]
      · split <;> simp
      · intro t ht i
        have hle := Tree.depth_le_depthItems ht
        rw [Tree.depth] at hdepth
        rw [ih t _ (by omega) (not_mem_indexPath hpath i) (hitems t ht),
          any_skips_indexPath hskip hpath]
    | @dict entries hfits hvalues =>
      have hvalue : ∀ p ∈ entries, ∀ k, Plain k →
          recurse_object (fix_keys op skip) fuel p.2 (keyPath path k) = some
            (if skip.any (skips path) = true ∨ k ∈ skip then p.2 else p.2.renamed op skip) := by
        intro p hp k hk
        have hle := Tree.depth_le_depthEntries hp
        rw [Tree.depth] at hdepth
        rw [ih p.2 _ (by omega) (not_mem_keyPath hpath hk) (hvalues p hp)]
        simp only [any_skips_keyPath hskip hpath hk]
      by_cases hfound : skip.any (skips path) = true
      · have hfunc : fix_keys op skip (.dict entries) path = .dict entries := if_pos hfound
        rw [recurse_object_dict hfunc hfits.nodup (g := fun _ v => v), if_pos hfound]
        · simp
        · intro p hp
          rw [hvalue p hp p.1 (hfits.plain _ (Dict.mem_keys_of_mem hp)), if_pos (.inl hfound)]
      · rw [if_neg hfound]
        exact recurse_object_renamed hfits hfound hvalue

end

theorem renamed_nodup {obj : Tree α} (hobj : obj.EveryDict (Fits op skip)) :
    (obj.renamed op skip).EveryDict List.Nodup := by
  induction hobj with
  | leaf a => exact .leaf a
  | @list items _ ih =>
    rw [Tree.renamed, Tree.renamedItems_eq]
    refine .list fun t ht => ?_
    obtain ⟨t', ht', rfl⟩ := List.mem_map.mp ht
    exact ih t' ht'
  | @dict entries hfits hvalues ih =>
    rw [Tree.renamed, Tree.renamedEntries_eq]
    refine .dict ?_ fun p hp => ?_
    · have hkeys := wf_rekey hfits
      simpa [Dict.WF, Dict.keys, Function.comp_def] using hkeys
    · obtain ⟨q, hq, rfl⟩ := List.mem_map.mp hp
      simp only []
      split
      · exact (hvalues q hq).mono fun _ h => h.nodup
      · exact ih q hq

/-- The keys are renamed, and no entry is lost, duplicated or moved. -/
theorem keys_to_renamed (hskip : ∀ name ∈ skip, Literal name) {obj : Tree α}
    (hobj : obj.EveryDict (Fits op skip)) {fuel : Nat} (hfuel : obj.depth < fuel) :
    keys_to op skip fuel obj = some (obj.renamed op skip) ∧
      (obj.renamed op skip).EveryDict List.Nodup := by
  refine ⟨?_, renamed_nodup hobj⟩
  rw [keys_to, recurse_object_eq hskip fuel obj [] hfuel (by simp) hobj, if_neg]
  rw [List.any_eq_true]
  rintro ⟨name, hname, hfound⟩
  exact not_occurs_nil (hskip name hname) ((skips_iff (by simp)).mp hfound)

/-- The first letter in lower case. -/
def lowerFirst : Str → Str
  | [] => []
  | c :: k => c.toLower :: k

/-- `[{"Foo": {"Tags": {"Bar": 1}}}]`. -/
def tagged : Tree Nat :=
  .list [.dict [("Foo".toList, .dict [("Tags".toList, .dict [("Bar".toList, .leaf 1)])])]]

theorem keys_to_renamed_tagged :
    keys_to lowerFirst ["Tags".toList, "tags".toList] 5 tagged =
        some (tagged.renamed lowerFirst ["Tags".toList, "tags".toList]) ∧
      (tagged.renamed lowerFirst ["Tags".toList, "tags".toList]).EveryDict List.Nodup := by
  have hfits : ∀ k ∈ ["Foo".toList, "Tags".toList, "Bar".toList],
      Fits lowerFirst ["Tags".toList, "tags".toList] [k] := by
    simp only [List.forall_mem_cons]
    refine ⟨?_, ?_, ?_, by simp⟩
    all_goals constructor <;> simp [Plain, lowerFirst]
  refine keys_to_renamed ?_ (.list ?_) (by decide)
  · simp [Literal]
  · simp only [List.mem_singleton, forall_eq]
    refine .dict (hfits _ (by simp)) ?_
    simp only [List.mem_singleton, forall_eq]
    refine .dict (hfits _ (by simp)) ?_
    simp only [List.mem_singleton, forall_eq]
    refine .dict (hfits _ (by simp)) ?_
    simp only [List.mem_singleton, forall_eq]
    exact .leaf 1

end LocalStack.Utils.Objects
