import Mathlib.Data.List.Dedup
import RivOS.Support.AssocVec

/-!
# Support — Shared resources

Objects that refer to one resource each, as an association vector: `ι` are the objects, `β` the
resources, and several objects may share one.

* `holders`: how many refer to a resource.
* `held`: the resources somebody refers to.  It changes with the first reference to one and with the
  last (`held_concat_new`, `held_erase_last`), and with no other (`held_concat_old`,
  `held_erase_shared`).
-/

namespace RivOS.Shares

open AssocVec

universe u v

variable {ι : Type u} {β : Type v} [DecidableEq ι] [DecidableEq β] {l : List (ι × β)} {i : ι}
  {b c : β}

def holders (l : List (ι × β)) (b : β) : Nat := l.countP fun e => e.2 = b

def held (l : List (ι × β)) : List β := (l.map Prod.snd).dedup

omit [DecidableEq ι] in
theorem nodup_held (l : List (ι × β)) : (held l).Nodup := List.nodup_dedup _

omit [DecidableEq ι] in
theorem mem_held : b ∈ held l ↔ ∃ i, (i, b) ∈ l := by
  simp [held]

omit [DecidableEq ι] in
theorem holders_pos_iff : 0 < holders l b ↔ b ∈ held l := by
  rw [holders, List.countP_pos_iff, mem_held]
  constructor
  · rintro ⟨⟨i, c⟩, he, hc⟩
    obtain rfl := of_decide_eq_true hc
    exact ⟨i, he⟩
  · rintro ⟨i, he⟩
    exact ⟨(i, b), he, decide_eq_true rfl⟩

omit [DecidableEq ι] in
theorem holders_le (l : List (ι × β)) (b : β) : holders l b ≤ l.length := List.countP_le_length

omit [DecidableEq ι] in
theorem holders_concat (l : List (ι × β)) (i : ι) (c b : β) :
    holders (l ++ [(i, c)]) b = holders l b + if c = b then 1 else 0 := by
  rw [holders, List.countP_append, List.countP_singleton, ← holders]
  by_cases h : c = b <;> simp [h]

theorem holders_erase (h : find l i = some c) (b : β) :
    holders (erase l i) b + (if c = b then 1 else 0) = holders l b := by
  obtain ⟨pre, post, rfl, he⟩ := split_of_find h
  rw [he]
  simp only [holders, List.countP_append, List.countP_cons]
  by_cases hc : c = b
  · simp [hc]
    omega
  · simp [hc]

theorem holders_eq_one_iff (h : find l i = some b) :
    holders l b = 1 ↔ b ∉ held (erase l i) := by
  have hb := holders_erase h b
  rw [if_pos rfl] at hb
  rw [← holders_pos_iff]
  omega

/-! ### What is held -/

omit [DecidableEq ι] in
theorem held_concat_old (h : b ∈ held l) (i : ι) : (held (l ++ [(i, b)])).Perm (held l) := by
  refine (List.perm_ext_iff_of_nodup (nodup_held _) (nodup_held _)).mpr fun c => ?_
  rw [← holders_pos_iff, ← holders_pos_iff, holders_concat]
  have := holders_pos_iff.mpr h
  split
  next hbc =>
    subst hbc
    omega
  · exact Iff.rfl

omit [DecidableEq ι] in
theorem held_concat_new (h : b ∉ held l) (i : ι) :
    (held (l ++ [(i, b)])).Perm (b :: held l) := by
  refine (List.perm_ext_iff_of_nodup (nodup_held _) ?_).mpr fun c => ?_
  · exact List.nodup_cons.mpr ⟨h, nodup_held _⟩
  rw [List.mem_cons, ← holders_pos_iff, ← holders_pos_iff, holders_concat]
  by_cases hbc : b = c
  · simp [hbc]
  · simp [hbc, Ne.symm hbc]

theorem held_erase_shared (h : find l i = some b) (hb : 1 < holders l b) :
    (held (erase l i)).Perm (held l) := by
  refine (List.perm_ext_iff_of_nodup (nodup_held _) (nodup_held _)).mpr fun c => ?_
  rw [← holders_pos_iff, ← holders_pos_iff]
  have hc := holders_erase h c
  split at hc
  next hbc =>
    subst hbc
    omega
  · omega

theorem held_erase_last (h : find l i = some b) (hb : holders l b = 1) :
    (held l).Perm (b :: held (erase l i)) := by
  have hout : b ∉ held (erase l i) := (holders_eq_one_iff h).mp hb
  refine (List.perm_ext_iff_of_nodup (nodup_held _) ?_).mpr fun c => ?_
  · exact List.nodup_cons.mpr ⟨hout, nodup_held _⟩
  rw [List.mem_cons, ← holders_pos_iff, ← holders_pos_iff]
  have hc := holders_erase h c
  by_cases hbc : b = c
  · subst hbc
    simp [hb]
  · rw [if_neg hbc] at hc
    simp only [Ne.symm hbc, false_or]
    omega

end RivOS.Shares
