namespace Backslice.Text

variable {α : Type} [DecidableEq α]

def occurs (mark : List α) : List α → Bool
  | [] => mark.isEmpty
  | c :: cs => mark.isPrefixOf (c :: cs) || occurs mark cs

/-- Removes the occurrences of `mark` from left to right, each search going on behind the one
found before it; `skip` letters still belong to the occurrence found last. -/
def removeFrom (mark : List α) : (skip : Nat) → List α → List α
  | _, [] => []
  | skip + 1, _ :: cs => removeFrom mark skip cs
  | 0, c :: cs =>
    if mark.isPrefixOf (c :: cs) then removeFrom mark (mark.length - 1) cs
    else c :: removeFrom mark 0 cs

def without (mark cs : List α) : List α :=
  if mark.isEmpty then cs else removeFrom mark 0 cs

def before (mark : List α) : List α → List α
  | [] => []
  | c :: cs => if mark.isPrefixOf (c :: cs) then [] else c :: before mark cs

theorem before_eq_self {mark cs : List α} (h : occurs mark cs = false) :
    before mark cs = cs := by
  induction cs with
  | nil => rfl
  | cons c cs ih =>
    simp only [occurs, Bool.or_eq_false_iff] at h
    simp [before, h.1, ih h.2]

def split (separator : Char) : List Char → List (List Char)
  | [] => [[]]
  | c :: cs =>
    match split separator cs with
    | [] => [[c]]
    | piece :: pieces =>
      if c = separator then [] :: piece :: pieces else (c :: piece) :: pieces

theorem split_ne_nil (separator : Char) (cs : List Char) : split separator cs ≠ [] := by
  cases cs with
  | nil => simp [split]
  | cons c cs =>
    simp only [split]
    split
    · simp
    · split <;> simp

theorem split_append_separator {separator : Char} {piece : List Char} (h : separator ∉ piece)
    (cs : List Char) : split separator (piece ++ separator :: cs) = piece :: split separator cs := by
  induction piece with
  | nil =>
    cases hs : split separator cs with
    | nil => exact absurd hs (split_ne_nil separator cs)
    | cons => simp [split, hs]
  | cons c piece ih =>
    simp only [List.mem_cons, not_or] at h
    simp [split, ih h.2, Ne.symm h.1]

def pieces (separator : Char) (s : String) : List String :=
  (split separator s.toList).map String.ofList

end Backslice.Text
