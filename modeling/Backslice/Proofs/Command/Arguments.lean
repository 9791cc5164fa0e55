import Backslice.Command.Arguments
import Backslice.Proofs.Label
import Backslice.Proofs.Table

namespace Backslice.Command

variable {c c' : Command} {p p' : Progress} {o : Opt} {v : Slot String}

def LineShort (c : Command) : Prop := ∀ n, c.line = .filled n → Text.Short n

theorem short_of_readInteger {slot : Slot Int} {n : Int} (h : readInteger v = .ok slot)
    (hn : slot = .filled n) : Text.Short n := by
  subst hn
  cases v with
  | blank => cases h
  | filled s =>
    simp only [readInteger, readSlot] at h
    cases hs : Text.readInt s with
    | error e =>
      rw [hs] at h
      cases h
    | ok m =>
      rw [hs] at h
      cases h
      exact Text.short_of_readInt hs

theorem line_withOption (h : c.withOption o v = .ok c') : c'.line = c.line := by
  cases o with
  | function | config | picture =>
    cases h
    rfl
  | language | stepBudget | logLevel =>
    obtain ⟨_, _, h⟩ := exists_of_bind_eq_ok h
    cases h
    rfl
  | help | printsEdges | listing => cases h

theorem line_withFlag (h : c.withFlag o = .ok c') : c'.line = c.line := by
  cases o with
  | printsEdges | listing =>
    cases h
    rfl
  | _ => cases h

namespace Progress

theorem lineShort_addValue (hp : p.command.LineShort) (h : p.addValue v = .ok p') :
    p'.command.LineShort := by
  unfold addValue at h
  split at h
  · cases h
    exact hp
  · cases h
    exact hp
  · obtain ⟨slot, hslot, h⟩ := exists_of_bind_eq_ok h
    cases h
    exact fun n hn => short_of_readInteger hslot hn
  · cases h
    exact hp
  · cases h
    exact hp

theorem lineShort_addOption (hp : p.command.LineShort) (h : p.addOption o v = .ok p') :
    p'.command.LineShort := by
  obtain ⟨c, hc, h⟩ := exists_of_bind_eq_ok h
  cases h
  exact fun n hn => hp n (line_withOption hc ▸ hn)

theorem lineShort_addFlag (hp : p.command.LineShort) (h : p.addFlag o = .ok p') :
    p'.command.LineShort := by
  obtain ⟨c, hc, h⟩ := exists_of_bind_eq_ok h
  cases h
  exact fun n hn => hp n (line_withFlag hc ▸ hn)

theorem lineShort_addAll {ts : List Token} (hp : p.command.LineShort)
    (h : addAll ts p = .ok p') : p'.command.LineShort := by
  fun_induction addAll ts p with
  | case1 p =>
    cases h
    exact hp
  | case2 s ts p ih =>
    obtain ⟨q, hq, h⟩ := exists_of_bind_eq_ok h
    exact ih q (lineShort_addValue hp hq) h
  | case3 ts p ih => exact ih hp h
  | case4 o v ts p _ ih =>
    obtain ⟨q, hq, h⟩ := exists_of_bind_eq_ok h
    exact ih q (lineShort_addOption hp hq) h
  | case5 => cases h
  | case6 o v ts p _ ih =>
    obtain ⟨q, hq, h⟩ := exists_of_bind_eq_ok h
    exact ih q (lineShort_addOption hp hq) h
  | case7 o v ts p _ ih =>
    obtain ⟨q, hq, h⟩ := exists_of_bind_eq_ok h
    obtain ⟨r, hr, h⟩ := exists_of_bind_eq_ok h
    exact ih r (lineShort_addValue (lineShort_addFlag hp hq) hr) h
  | case8 => cases h
  | case9 o ts p _ _ ih =>
    obtain ⟨q, hq, h⟩ := exists_of_bind_eq_ok h
    exact ih q (lineShort_addFlag hp hq) h

theorem lineShort_addSlots {vs : List (Slot String)} (hp : p.command.LineShort)
    (h : addSlots vs p = .ok p') : p'.command.LineShort := by
  induction vs generalizing p with
  | nil =>
    cases h
    exact hp
  | cons v vs ih =>
    obtain ⟨q, hq, h⟩ := exists_of_bind_eq_ok h
    exact ih (lineShort_addValue hp hq) h

theorem lineShort_addPlain {arguments : List String} (hp : p.command.LineShort)
    (h : p.addPlain arguments = .ok p') : p'.command.LineShort := by
  unfold addPlain at h
  split at h
  · exact lineShort_addSlots hp h
  · split at h
    · split at h
      · exact lineShort_addSlots hp h
      · cases h
        exact hp
    · cases h
      exact hp

end Progress

theorem lineShort_parse {arguments : List String} (h : parse arguments = .ok c) : c.LineShort := by
  obtain ⟨⟨ts, rest⟩, _, h⟩ := exists_of_bind_eq_ok h
  obtain ⟨p, hp, h⟩ := exists_of_bind_eq_ok h
  have hstart : ({} : Progress).command.LineShort := fun n hn => by cases hn
  have hshort := Progress.lineShort_addAll hstart hp
  have hend : ∀ q : Progress, q.command.LineShort →
      (if q.values = 4 ∧ q.leftOver = false then .ok q.command
        else .error UsageError.rejected) = Except.ok c → c.LineShort := by
    intro q hq h
    split at h
    · cases h
      exact hq
    · cases h
  cases rest with
  | none => exact hend p hshort h
  | some plain =>
    obtain ⟨q, hq, h⟩ := exists_of_bind_eq_ok h
    exact hend q (Progress.lineShort_addPlain hshort hq) h

end Backslice.Command
