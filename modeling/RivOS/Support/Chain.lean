import Mathlib.Data.Fintype.Pigeonhole
import Mathlib.Data.List.Basic
import Mathlib.Logic.Function.Iterate

/-!
# Support — Linked chains

Nodes that name their successor in a table, as the clusters of a file allocation table do.  Nothing
says that the links come to an end: `Chain` and `Visits` are finite derivations, and a node from
which the links go round has neither.

* `Chain next stop c cs`: from `c` on the nodes are `cs`, and what the last one names is a `stop`.
* `Visits next stop visit d c r`: the nodes from `c` on are asked in turn, and `r` is the first
  answer, or `d` where the chain ends without one.  There is at most one (`Visits.unique`), and along
  a chain there is one, namely that of the first node with an answer (`Chain.visits`).
* `visits_iff_not_goesRound`: where the links can name only finitely many nodes there is one unless
  the links go round.
-/

namespace RivOS

universe u v

variable {α : Type u} {ρ : Type v} {next : α → α} {stop : α → Prop} {visit : α → Option ρ}
  {d r r' : ρ} {c : α} {cs cs' : List α}

inductive Chain (next : α → α) (stop : α → Prop) : α → List α → Prop
  | last {c : α} : stop (next c) → Chain next stop c [c]
  | link {c : α} {cs : List α} : ¬ stop (next c) → Chain next stop (next c) cs →
      Chain next stop c (c :: cs)

inductive Visits (next : α → α) (stop : α → Prop) (visit : α → Option ρ) (d : ρ) : α → ρ → Prop
  | answer {c : α} {r : ρ} : visit c = some r → Visits next stop visit d c r
  | last {c : α} : visit c = none → stop (next c) → Visits next stop visit d c d
  | link {c : α} {r : ρ} : visit c = none → ¬ stop (next c) →
      Visits next stop visit d (next c) r → Visits next stop visit d c r

theorem Chain.unique (h : Chain next stop c cs) (h' : Chain next stop c cs') : cs = cs' := by
  induction h generalizing cs' with
  | last hs =>
      cases h' with
      | last => rfl
      | link hn => exact absurd hs hn
  | link hn _ ih =>
      cases h' with
      | last hs => exact absurd hs hn
      | link _ h' => rw [ih h']

/-- Two tables that agree on the nodes of a chain have it both. -/
theorem Chain.congr {next' : α → α} (h : Chain next stop c cs) (hn : ∀ a ∈ cs, next' a = next a) :
    Chain next' stop c cs := by
  induction h with
  | @last c hs =>
      rw [← hn c List.mem_cons_self] at hs
      exact .last hs
  | @link c cs hns _ ih =>
      have ih := ih fun a ha => hn a (.tail c ha)
      rw [← hn c List.mem_cons_self] at hns ih
      exact .link hns ih

theorem Visits.unique (h : Visits next stop visit d c r) (h' : Visits next stop visit d c r') :
    r = r' := by
  induction h generalizing r' with
  | answer hv =>
      cases h' with
      | answer hv' => exact Option.some.inj (hv.symm.trans hv')
      | last hv' => simp [hv] at hv'
      | link hv' => simp [hv] at hv'
  | last hv hs =>
      cases h' with
      | answer hv' => simp [hv] at hv'
      | last => rfl
      | link _ hn => exact absurd hs hn
  | link hv hn _ ih =>
      cases h' with
      | answer hv' => simp [hv] at hv'
      | last _ hs => exact absurd hs hn
      | link _ _ h' => exact ih h'

/-- Along a chain the first node with an answer answers. -/
theorem Chain.visits (h : Chain next stop c cs) :
    Visits next stop visit d c ((cs.findSome? visit).getD d) := by
  induction h with
  | @last c hs =>
      cases hv : visit c with
      | none => simpa [hv] using Visits.last hv hs
      | some r => simpa [hv] using Visits.answer hv
  | @link c cs hn _ ih =>
      cases hv : visit c with
      | none => simpa [hv] using Visits.link hv hn ih
      | some r => simpa [hv] using Visits.answer hv

/-! ### Chains that go round -/

/-- Neither an answer nor an end among the first `n` nodes from `c` on. -/
def Quiet (next : α → α) (stop : α → Prop) (visit : α → Option ρ) (c : α) (n : Nat) : Prop :=
  ∀ k < n, visit (next^[k] c) = none ∧ ¬ stop (next (next^[k] c))

/-- From `c` on the links come back to a node, with neither an answer nor an end before. -/
def GoesRound (next : α → α) (stop : α → Prop) (visit : α → Option ρ) (c : α) : Prop :=
  ∃ i j, i < j ∧ next^[i] c = next^[j] c ∧ Quiet next stop visit c j

theorem Quiet.tail {n : Nat} (h : Quiet next stop visit c (n + 1)) :
    Quiet next stop visit (next c) n :=
  fun k hk => h (k + 1) (Nat.succ_lt_succ hk)

theorem Quiet.concat {n : Nat} (h : Quiet next stop visit c n) (ha : visit (next^[n] c) = none)
    (hs : ¬ stop (next (next^[n] c))) : Quiet next stop visit c (n + 1) := by
  intro k hk
  rcases Nat.lt_succ_iff_lt_or_eq.mp hk with hk | rfl
  · exact h k hk
  · exact ⟨ha, hs⟩

/-- Where something answers, the nodes before are all that is quiet. -/
theorem Visits.not_quiet (h : Visits next stop visit d c r) :
    ∃ n, ¬ Quiet next stop visit c n := by
  induction h with
  | @answer c r ha =>
      refine ⟨1, fun hq => ?_⟩
      have := (hq 0 Nat.one_pos).1
      simp [ha] at this
  | last _ hs => exact ⟨1, fun hq => (hq 0 Nat.one_pos).2 hs⟩
  | link _ _ _ ih =>
      obtain ⟨n, hn⟩ := ih
      exact ⟨n + 1, fun hq => hn hq.tail⟩

theorem exists_visits {n : Nat} (h : ¬ Quiet next stop visit c n) :
    ∃ r, Visits next stop visit d c r := by
  induction n generalizing c with
  | zero => exact absurd (fun k hk => absurd hk (Nat.not_lt_zero k)) h
  | succ n ih =>
      cases ha : visit c with
      | some r => exact ⟨r, .answer ha⟩
      | none =>
          by_cases hs : stop (next c)
          · exact ⟨d, .last ha hs⟩
          · have htail : ¬ Quiet next stop visit (next c) n := by
              intro hq
              refine h fun k hk => ?_
              cases k with
              | zero => exact ⟨ha, hs⟩
              | succ k => exact hq k (Nat.lt_of_succ_lt_succ hk)
            obtain ⟨r, hr⟩ := ih htail
            exact ⟨r, .link ha hs hr⟩

/-- Once the links have come back they lead nowhere new. -/
theorem iterate_comes_back {i j : Nat} (hij : i < j) (h : next^[i] c = next^[j] c) (k : Nat) :
    ∃ k' < j, next^[k] c = next^[k'] c := by
  induction k with
  | zero => exact ⟨0, Nat.zero_lt_of_lt hij, rfl⟩
  | succ k ih =>
      obtain ⟨k', hk', e⟩ := ih
      have hnext : next^[k + 1] c = next^[k' + 1] c := by
        rw [Function.iterate_succ_apply', e, ← Function.iterate_succ_apply' next k' c]
      rcases Nat.lt_or_eq_of_le (Nat.succ_le_of_lt hk') with hlt | heq
      · exact ⟨k' + 1, hlt, hnext⟩
      · exact ⟨i, hij, by rw [hnext, h, ← heq]⟩

theorem GoesRound.quiet (h : GoesRound next stop visit c) (n : Nat) :
    Quiet next stop visit c n := by
  obtain ⟨i, j, hij, hback, hq⟩ := h
  intro k _
  obtain ⟨k', hk', e⟩ := iterate_comes_back hij hback k
  rw [e]
  exact hq k' hk'

/-- **Where nodes can name only finitely many**: something answers exactly if the links do not go
round. -/
theorem visits_iff_not_goesRound (hfin : (Set.range next).Finite) :
    (∃ r, Visits next stop visit d c r) ↔ ¬ GoesRound next stop visit c := by
  constructor
  · rintro ⟨r, hr⟩ hround
    obtain ⟨n, hn⟩ := hr.not_quiet
    exact hn (hround.quiet n)
  · intro hround
    by_contra hnone
    have hquiet : ∀ n, Quiet next stop visit c n := fun n => by
      by_contra hn
      exact hnone (exists_visits hn)
    have := hfin.to_subtype
    let f : Nat → Set.range next := fun k => ⟨next (next^[k] c), _, rfl⟩
    obtain ⟨a, b, hne, hab⟩ := Finite.exists_ne_map_eq_of_infinite f
    have hback : next^[a + 1] c = next^[b + 1] c := by
      rw [Function.iterate_succ_apply', Function.iterate_succ_apply']
      exact congrArg Subtype.val hab
    rcases Nat.lt_or_gt_of_ne hne with hlt | hlt
    · exact hround ⟨a + 1, b + 1, Nat.succ_lt_succ hlt, hback, hquiet _⟩
    · exact hround ⟨b + 1, a + 1, Nat.succ_lt_succ hlt, hback.symm, hquiet _⟩

end RivOS
