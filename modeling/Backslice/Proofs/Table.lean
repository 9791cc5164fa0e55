import Backslice.Table
import Mathlib.Data.List.Induction
import Mathlib.Data.List.Nodup

namespace Backslice.Table

variable {κ α : Type} [DecidableEq κ]

theorem find_isSome (k : κ) (es : List (κ × α)) :
    (find k es).isSome ↔ k ∈ es.map (·.1) := by
  induction es with
  | nil => simp [find]
  | cons e es ih =>
    obtain ⟨k', a⟩ := e
    by_cases h : k' = k
    · simp [find, h]
    · simp only [find, h, if_false, ih, List.map_cons, List.mem_cons, Ne.symm h, false_or]

theorem get?_isSome (t : Table κ α) (k : κ) : (t.get? k).isSome ↔ k ∈ t.keys :=
  find_isSome k t.entries

theorem exists_get?_iff (t : Table κ α) (k : κ) : (∃ a, t.get? k = some a) ↔ k ∈ t.keys := by
  rw [← get?_isSome, Option.isSome_iff_exists]

theorem mem_keys_of_get? {t : Table κ α} {k : κ} {a : α} (h : t.get? k = some a) :
    k ∈ t.keys := (t.exists_get?_iff k).mp ⟨a, h⟩

theorem get?_eq_none_iff (t : Table κ α) (k : κ) : t.get? k = none ↔ k ∉ t.keys := by
  rw [← get?_isSome, Option.not_isSome_iff_eq_none]

theorem getD_put_append (t : Table κ (List α)) (k k' : κ) (a : α) :
    ((t.put k ((t.get? k).getD [] ++ [a])).get? k').getD [] =
      (t.get? k').getD [] ++ if k = k' then [a] else [] := by
  rw [get?_put]
  split
  · rename_i h
    rw [h, Option.getD_some]
  · rw [List.append_nil]

theorem map_fst_replace (k : κ) (a : α) (es : List (κ × α)) :
    (replace k a es).map (·.1) =
      if k ∈ es.map (·.1) then es.map (·.1) else es.map (·.1) ++ [k] := by
  induction es with
  | nil => simp [replace]
  | cons e es ih =>
    obtain ⟨k', b⟩ := e
    by_cases h : k' = k
    · simp [replace, h]
    · simp only [replace, h, if_false, List.map_cons, ih, List.mem_cons, Ne.symm h, false_or]
      split <;> simp

theorem keys_put (t : Table κ α) (k : κ) (a : α) :
    (t.put k a).keys = if k ∈ t.keys then t.keys else t.keys ++ [k] :=
  map_fst_replace k a t.entries

@[simp] theorem mem_keys_put (t : Table κ α) (k k' : κ) (a : α) :
    k ∈ (t.put k' a).keys ↔ k ∈ t.keys ∨ k = k' := by
  rw [keys_put]
  split
  · rename_i h
    constructor
    · exact .inl
    · rintro (h' | rfl)
      · exact h'
      · exact h
  · simp

theorem nodup_keys_put {t : Table κ α} (h : t.keys.Nodup) (k : κ) (a : α) :
    (t.put k a).keys.Nodup := by
  rw [keys_put]
  split
  · exact h
  · rename_i hk
    exact List.Nodup.append h (List.nodup_singleton k) (by simpa using hk)

theorem nodup_keys_ofKeys (ks : List κ) (f : κ → α) : (ofKeys ks f).keys.Nodup := by
  suffices h : ∀ (es : List (κ × α)) (t : Table κ α), t.keys.Nodup →
      (es.foldl (fun t e => t.put e.1 e.2) t).keys.Nodup from h _ {} List.nodup_nil
  intro es
  induction es with
  | nil => exact fun t ht => ht
  | cons e es ih => exact fun t ht => ih _ (nodup_keys_put ht e.1 e.2)

@[simp] theorem mem_keys_ofKeys (ks : List κ) (f : κ → α) (k : κ) :
    k ∈ (ofKeys ks f).keys ↔ k ∈ ks := by
  rw [← get?_isSome, get?_ofKeys]
  split <;> simp_all

theorem keys_ofKeys {ks : List κ} (h : ks.Nodup) (f : κ → α) : (ofKeys ks f).keys = ks := by
  induction ks using List.reverseRecOn with
  | nil => rfl
  | append_singleton ks k ih =>
    have hk : k ∉ ks := fun hmem => List.disjoint_of_nodup_append h hmem (List.mem_singleton_self k)
    have hconcat : ofKeys (ks ++ [k]) f = (ofKeys ks f).put k (f k) := by simp [ofKeys, ofList]
    rw [hconcat, keys_put, ih h.of_append_left, if_neg hk]

theorem ofKeys_congr {ks : List κ} {f f' : κ → α} (h : ∀ k ∈ ks, f k = f' k) :
    ofKeys ks f = ofKeys ks f' := by
  unfold ofKeys
  congr 1
  exact List.map_congr_left fun k hk => by rw [h k hk]

theorem get?_eq_some_iff_mem {t : Table κ α} (hn : t.keys.Nodup) {k : κ} {a : α} :
    t.get? k = some a ↔ (k, a) ∈ t.entries := by
  obtain ⟨es⟩ := t
  simp only [get?, keys] at *
  induction es with
  | nil => simp [find]
  | cons e es ih =>
    obtain ⟨k', b⟩ := e
    rw [List.map_cons, List.nodup_cons] at hn
    by_cases h : k' = k
    · subst h
      have : (k', a) ∉ es := fun hm => hn.1 (List.mem_map.mpr ⟨_, hm, rfl⟩)
      simp [find, this, eq_comm]
    · simp [find, h, ih hn.2, Ne.symm h]

end Backslice.Table

namespace Backslice

theorem nodup_eraseDups {α : Type} [DecidableEq α] (as : List α) : as.eraseDups.Nodup := by
  induction hlen : as.length using Nat.strongRecOn generalizing as with
  | _ k ih =>
    cases as with
    | nil => exact List.nodup_nil
    | cons a as =>
      rw [List.eraseDups_cons, List.nodup_cons]
      refine ⟨by simp, ih _ ?_ _ rfl⟩
      rw [← hlen, List.length_cons]
      exact Nat.lt_succ_of_le (List.length_filter_le _ _)

theorem ok_bind {ε α β : Type} (a : α) (k : α → Except ε β) : (.ok a >>= k) = k a := rfl

theorem error_bind {ε α β : Type} (e : ε) (k : α → Except ε β) : (.error e >>= k) = .error e := rfl

theorem exists_of_bind_eq_ok {ε α β : Type} {x : Except ε α} {f : α → Except ε β} {b : β}
    (h : x >>= f = .ok b) : ∃ a, x = .ok a ∧ f a = .ok b := by
  cases x with
  | error e => cases h
  | ok a => exact ⟨a, rfl, h⟩

theorem exists_of_map_eq_ok {ε α β : Type} {x : Except ε α} {f : α → β} {b : β}
    (h : x.map f = .ok b) : ∃ a, x = .ok a ∧ f a = b := by
  cases x with
  | error e => cases h
  | ok a => exact ⟨a, rfl, Except.ok.inj h⟩

theorem exists_of_any {ε α : Type} {x : Except ε α} {p : α → Bool}
    (h : x.toOption.any p = true) : ∃ a, x = .ok a ∧ p a = true := by
  cases x with
  | error e => cases h
  | ok a => exact ⟨a, rfl, h⟩

theorem exists_of_isSome {ε α : Type} {x : Except ε α} (h : x.toOption.isSome = true) :
    ∃ a, x = .ok a := by
  cases x with
  | error e => cases h
  | ok a => exact ⟨a, rfl⟩

theorem exists_of_map_toOption {ε α β : Type} {x : Except ε α} {f : α → β} {b : β}
    (h : x.toOption.map f = some b) : ∃ a, x = .ok a ∧ f a = b := by
  cases x with
  | error e => cases h
  | ok a => exact ⟨a, rfl, Option.some.inj h⟩

theorem eq_ok_of_mapError_eq_ok {ε ε' α : Type} {x : Except ε α} {f : ε → ε'} {a : α}
    (h : x.mapError f = .ok a) : x = .ok a := by
  cases x with
  | error e => cases h
  | ok a' => exact congrArg Except.ok (Except.ok.inj h)

end Backslice
