import Mathlib.Data.Finset.Card

/-! What is left of a list when repeats are dropped.

`List.eraseDups` keeps each element where it first stands. So a longer list only
adds to what is left of a shorter one, at the end (`eraseDups_prefix_append`), and it adds
an element exactly if that is new (`eraseDups_concat`). -/
namespace NearMiss

variable {α : Type} [DecidableEq α]

theorem eraseDups_concat (list : List α) (last : α) :
    (list ++ [last]).eraseDups =
      if last ∈ list then list.eraseDups else list.eraseDups ++ [last] := by
  rw [List.eraseDups_append]
  split
  · next known => simp [List.removeAll, known]
  · next new =>
    have fresh : [last].removeAll list = [last] := by simp [List.removeAll, new]
    rw [fresh]
    rfl

theorem eraseDups_prefix_append (list later : List α) :
    list.eraseDups <+: (list ++ later).eraseDups := by
  rw [List.eraseDups_append]
  exact List.prefix_append _ _

theorem nodup_eraseDups (list : List α) : list.eraseDups.Nodup := by
  induction list using List.reverseRecOn with
  | nil => exact .nil
  | append_singleton list last ih =>
    rw [eraseDups_concat]
    split
    · exact ih
    · next new =>
      refine List.nodup_append.mpr ⟨ih, List.nodup_singleton last, ?_⟩
      rintro known on _ alone rfl
      exact new (List.mem_eraseDups.mp (List.mem_singleton.mp alone ▸ on))

theorem length_eraseDups (list : List α) : list.eraseDups.length = list.toFinset.card := by
  have same : list.eraseDups.toFinset = list.toFinset := by
    ext element
    simp
  rw [← same, List.toFinset_card_of_nodup (nodup_eraseDups list)]

end NearMiss
