import Backslice.Command.Workspace
import Backslice.Proofs.Table

namespace Backslice.Workspace

variable {w w' : Workspace} {path name : String} {place p q : Place} {names : List String}

def Open (w : Workspace) (place : Place) : Prop :=
  ∀ q, q <+: place → q ≠ place → w.isFolder q = true

theorem isFolder_of_isAbove (h : q.isAbove = true) : w.isFolder q = true := by
  simp [isFolder, h]

theorem open_parent (h : w.Open place) : w.Open place.parent := by
  unfold Place.parent
  split
  · rename_i hroot
    exact hroot ▸ h
  · split
    · rename_i habove
      intro q hq _
      refine isFolder_of_isAbove (List.all_eq_true.mpr fun name hname => ?_)
      rcases List.mem_cons.mp (hq.subset hname) with rfl | hname
      · rfl
      · exact List.all_eq_true.mp habove name hname
    · intro q hq hne
      have hlast := List.dropLast_prefix place
      refine h q (hq.trans hlast) ?_
      rintro rfl
      exact hne (hq.eq_of_length_le hlast.length_le)

theorem open_enter (h : w.Open place) (hfolder : w.isFolder place = true) (name : String) :
    w.Open (place.enter name) := by
  unfold Place.enter
  split
  · exact h
  · split
    · exact open_parent h
    · intro q hq hne
      rcases List.prefix_concat_iff.mp hq with rfl | hq
      · exact absurd rfl hne
      · by_cases heq : q = place
        · exact heq ▸ hfolder
        · exact h q hq heq

theorem open_follow (h : w.Open place) (hp : w.follow place names = .ok p) : w.Open p := by
  induction names generalizing place with
  | nil =>
    cases hp
    exact h
  | cons name names ih =>
    rw [follow] at hp
    split at hp
    · cases hp
    · rename_i hfolder
      split at hp
      · cases hp
      · exact ih (open_enter h (by simpa using hfolder) name) hp

theorem open_start (path : String) : w.Open (start path) := by
  unfold start
  split
  · intro q hq hne
    rcases List.prefix_concat_iff.mp (show q <+: [] ++ ["/"] from hq) with rfl | hq
    · exact absurd rfl hne
    · exact isFolder_of_isAbove (by rw [List.prefix_nil.mp hq]; rfl)
  · intro q hq hne
    exact absurd (List.prefix_nil.mp hq) hne

theorem follow_of_locateNew (h : w.locateNew path = .ok place) : pathFault? path = none ∧
    asksForFolder path = false ∧ w.follow (start path) (Workspace.names path) = .ok place ∧
      w.isFolder place = false := by
  unfold locateNew at h
  split at h
  · cases h
  · rename_i hfault
    split at h
    · obtain ⟨_, _, h⟩ := exists_of_bind_eq_ok h
      cases h
    · rename_i hasks
      obtain ⟨p, hp, h⟩ := exists_of_bind_eq_ok h
      split at h
      · cases h
      · rename_i hfolder
        cases h
        exact ⟨hfault, by simpa using hasks, hp, by simpa using hfolder⟩

theorem isFolder_put (h : w.Open place) (content : ByteArray) (q : Place) :
    isFolder { w with files := w.files.put place content } q = w.isFolder q := by
  rw [Bool.eq_iff_iff, isFolder, Bool.or_eq_true]
  constructor
  · rintro (hq | hq)
    · rw [isFolder, Bool.or_eq_true]
      exact .inl hq
    · obtain ⟨k, hk, hbelow⟩ := List.any_eq_true.mp hq
      rcases (Table.mem_keys_put ..).mp hk with hk | rfl
      · rw [isFolder, Bool.or_eq_true]
        exact .inr (List.any_eq_true.mpr ⟨k, hk, hbelow⟩)
      · rw [Bool.and_eq_true, List.isPrefixOf_iff_prefix, bne_iff_ne] at hbelow
        exact h q hbelow.1 hbelow.2
  · intro hq
    rw [isFolder, Bool.or_eq_true] at hq
    refine hq.imp_right fun hq => ?_
    obtain ⟨k, hk, hbelow⟩ := List.any_eq_true.mp hq
    exact List.any_eq_true.mpr ⟨k, (Table.mem_keys_put ..).mpr (.inl hk), hbelow⟩

theorem follow_eq_of_isFolder (hfolder : ∀ q, w'.isFolder q = w.isFolder q)
    (h : w.follow place names = .ok p) : w'.follow place names = .ok p := by
  induction names generalizing place with
  | nil => exact h
  | cons name names ih =>
    rw [follow] at h ⊢
    rw [hfolder]
    split at h
    · cases h
    · rename_i hf
      rw [if_neg hf]
      split at h
      · cases h
      · rename_i hlong
        rw [if_neg hlong]
        exact ih h

theorem locateNew_eq_of_isFolder (hfolder : ∀ q, w'.isFolder q = w.isFolder q)
    (h : w.locateNew path = .ok place) : w'.locateNew path = .ok place := by
  obtain ⟨hfault, hasks, hfollow, hplace⟩ := follow_of_locateNew h
  simp only [locateNew, hfault, hasks, follow_eq_of_isFolder hfolder hfollow, hfolder, hplace, bind,
    Except.bind, Bool.false_eq_true, if_false]
  rfl

structure Writes (w : Workspace) (place : Place) (content : String) (w' : Workspace) : Prop where
  locateNew : ∀ path p, w.locateNew path = .ok p → w'.locateNew path = .ok p
  contentOf?_of_ne : ∀ p, p ≠ place → w'.contentOf? p = w.contentOf? p
  contentOf?_self : place ≠ .nullDevice → w'.contentOf? place = some content.toUTF8

theorem write_ok (h : w.locateNew path = .ok place) (content : String) :
    ∃ w', w.write path content = .ok w' ∧ Writes w place content w' := by
  by_cases hnull : place = .nullDevice
  · refine ⟨w, by simp only [write, h, hnull, if_true], ?_⟩
    exact ⟨fun _ _ => id, fun _ _ => rfl, fun hne => absurd hnull hne⟩
  · refine ⟨{ w with files := w.files.put place content.toUTF8 },
      by simp only [write, h, hnull, if_false], ?_⟩
    obtain ⟨_, _, hfollow, _⟩ := follow_of_locateNew h
    have hopen : w.Open place := open_follow (open_start path) hfollow
    constructor
    · exact fun path p hp => locateNew_eq_of_isFolder (isFolder_put hopen _) hp
    · intro p hp
      simp only [contentOf?, Table.get?_put, hp.symm, if_false]
    · intro _
      simp only [contentOf?, hnull, if_false, Table.get?_put, if_true]

end Backslice.Workspace
