namespace Backslice

structure Table (κ α : Type) where
  entries : List (κ × α) := []
  deriving Repr

namespace Table

variable {κ α : Type} [DecidableEq κ]

def find (k : κ) : List (κ × α) → Option α
  | [] => none
  | (k', a) :: es => if k' = k then some a else find k es

def get? (t : Table κ α) (k : κ) : Option α := find k t.entries

def replace (k : κ) (a : α) : List (κ × α) → List (κ × α)
  | [] => [(k, a)]
  | (k', b) :: es => if k' = k then (k, a) :: es else (k', b) :: replace k a es

def put (t : Table κ α) (k : κ) (a : α) : Table κ α := ⟨replace k a t.entries⟩

def ofList (es : List (κ × α)) : Table κ α := es.foldl (fun t e => t.put e.1 e.2) {}

def ofKeys (ks : List κ) (f : κ → α) : Table κ α := ofList (ks.map fun k => (k, f k))

def keys (t : Table κ α) : List κ := t.entries.map (·.1)

def contains (t : Table κ α) (k : κ) : Bool := (t.get? k).isSome

theorem find_replace (k k' : κ) (a : α) (es : List (κ × α)) :
    find k (replace k' a es) = if k' = k then some a else find k es := by
  induction es with
  | nil => simp [replace, find]
  | cons e es ih =>
    obtain ⟨k'', b⟩ := e
    unfold replace
    split
    · rename_i h
      subst h
      simp only [find]
      split <;> rfl
    · rename_i h
      simp only [find, ih]
      split
      · rename_i h'
        subst h'
        simp [Ne.symm h]
      · rfl

@[simp] theorem get?_put (t : Table κ α) (k k' : κ) (a : α) :
    (t.put k' a).get? k = if k' = k then some a else t.get? k :=
  find_replace k k' a t.entries

theorem get?_putAll (f : κ → α) (k : κ) (ks : List κ) (t : Table κ α) :
    ((ks.map fun k => (k, f k)).foldl (fun t e => t.put e.1 e.2) t).get? k =
      if k ∈ ks then some (f k) else t.get? k := by
  induction ks generalizing t with
  | nil => simp
  | cons k' ks ih =>
    simp only [List.map_cons, List.foldl_cons, ih, get?_put, List.mem_cons]
    by_cases h : k' = k
    · subst h
      simp
    · simp [h, Ne.symm h]

@[simp] theorem get?_ofKeys (ks : List κ) (f : κ → α) (k : κ) :
    (ofKeys ks f).get? k = if k ∈ ks then some (f k) else none :=
  get?_putAll f k ks {}

end Table

end Backslice
