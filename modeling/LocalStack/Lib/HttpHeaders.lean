import LocalStack.Lib.Text

/-! The headers of a request or a response: names and values in order, where names are
looked up without regard to case. -/

namespace LocalStack.HttpHeaders
open LocalStack.Text

abbrev Headers := List (Str × Str)

/-- A name as it is compared. -/
def ikey (name : Str) : Str := name.map Char.toLower

namespace Headers

/-- `headers.get(name)`: the value of the first header of that name. -/
def get (h : Headers) (name : Str) : Option Str :=
  (h.find? fun e => ikey e.1 = ikey name).map Prod.snd

/-- `name in headers`. -/
def contains (h : Headers) (name : Str) : Bool := (h.get name).isSome

/-- `del headers[name]`. -/
def remove (h : Headers) (name : Str) : Headers := h.filter fun e => ikey e.1 ≠ ikey name

/-- `headers[name] = value`: in the place of the first header of that name, or at the end. -/
def set : Headers → Str → Str → Headers
  | [], name, value => [(name, value)]
  | e :: h, name, value =>
    if ikey e.1 = ikey name then (name, value) :: remove h name else e :: set h name value

variable (h : Headers) {name name' : Str} (value : Str)

theorem get_cons (e : Str × Str) (name : Str) :
    get (e :: h) name = if ikey e.1 = ikey name then some e.2 else get h name := by
  rw [get, List.find?_cons]
  by_cases he : ikey e.1 = ikey name
  · simp [he]
  · simp [he, get]

theorem get_remove_ne (hne : ikey name' ≠ ikey name) :
    (h.remove name).get name' = h.get name' := by
  simp only [get, remove, List.find?_filter]
  congr 2
  funext e
  by_cases he : ikey e.1 = ikey name'
  · simp [he, hne]
  · simp [he]

@[simp] theorem get_set_self (name : Str) : (h.set name value).get name = some value := by
  induction h with
  | nil => simp [set, get]
  | cons e h ih =>
    rw [set]
    split
    · rw [get_cons, if_pos rfl]
    · rename_i he
      rw [get_cons, if_neg he, ih]

theorem get_set_ne (hne : ikey name' ≠ ikey name) : (h.set name value).get name' = h.get name' := by
  induction h with
  | nil => rw [set, get_cons, if_neg hne.symm]
  | cons e h ih =>
    rw [set]
    split
    · rename_i he
      rw [get_cons, get_cons, if_neg hne.symm, he, if_neg hne.symm, get_remove_ne h hne]
    · rw [get_cons, get_cons, ih]

end Headers

end LocalStack.HttpHeaders
