import Mathlib.Data.Finset.Card
import Mathlib.Data.Fintype.Basic
import Mathlib.Order.BoundedOrder.Basic
import Mathlib.Tactic

/-!
# Cumulative tallies

Members ask for a level, and a quorum of members that ask for a level or beyond
raises the current level to it. Only the latest request of a member counts, lower
requests are dropped, and a request is tallied for its own level only.

Main results:

- `Tally.supported_run`: a level that was reached is supported by a quorum.
- `Tally.exact_run`: no level above is the exact request of a quorum.
- `Tally.current_eq_of_settled`: requests in any order lead to the same level when
  they leave no quorum above it.
- `Tally.current_run_of_level`: when requests for one level reach it.
- `Tally.current_eq_of_level`: their order does not matter.
-/

/-- The level that was reached, and the latest request of every member. -/
structure Tally (ι α : Type*) where
  current : α
  latest : ι → α

namespace Tally

open List

variable {ι α : Type*} [Fintype ι] [DecidableEq ι] [LinearOrder α]

/-- The members whose latest request is a level or beyond. -/
def supporters (tally : Tally ι α) (level : α) : Finset ι :=
  Finset.univ.filter fun member => level ≤ tally.latest member

omit [DecidableEq ι] in
@[simp] theorem mem_supporters {tally : Tally ι α} {level : α} {member : ι} :
    member ∈ tally.supporters level ↔ level ≤ tally.latest member := by
  simp [supporters]

/-- Store the latest request of a member. -/
def request (tally : Tally ι α) (member : ι) (level : α) : Tally ι α :=
  { tally with latest := Function.update tally.latest member level }

/-- Whether a request is neither behind the current level nor below the member's latest one. -/
def Registers (tally : Tally ι α) (member : ι) (level : α) : Prop :=
  tally.current < level ∧ tally.latest member ≤ level

instance (tally : Tally ι α) (member : ι) (level : α) : Decidable (tally.Registers member level) :=
  inferInstanceAs (Decidable (_ ∧ _))

/-- Count one request, and move to its level once a quorum supports it. -/
def vote (quorum : ℕ) (tally : Tally ι α) (ballot : ι × α) : Tally ι α :=
  if tally.Registers ballot.1 ballot.2 then
    let next := tally.request ballot.1 ballot.2
    if quorum ≤ (next.supporters ballot.2).card then { next with current := ballot.2 } else next
  else
    tally

/-- Count requests one after the other. -/
def run (quorum : ℕ) (tally : Tally ι α) (ballots : List (ι × α)) : Tally ι α :=
  ballots.foldl (vote quorum) tally

variable {quorum : ℕ} {tally : Tally ι α}

omit [Fintype ι] [LinearOrder α] in
theorem latest_request (member other : ι) (level : α) :
    (tally.request member level).latest other = if other = member then level
      else tally.latest other := by
  simp [request, Function.update_apply]

/-- What one request can do. -/
theorem vote_cases (quorum : ℕ) (tally : Tally ι α) (ballot : ι × α) :
    (¬ tally.Registers ballot.1 ballot.2 ∧ tally.vote quorum ballot = tally) ∨
    (tally.Registers ballot.1 ballot.2 ∧
      quorum ≤ ((tally.request ballot.1 ballot.2).supporters ballot.2).card ∧
      tally.vote quorum ballot = { tally.request ballot.1 ballot.2 with current := ballot.2 }) ∨
    (tally.Registers ballot.1 ballot.2 ∧
      ((tally.request ballot.1 ballot.2).supporters ballot.2).card < quorum ∧
      tally.vote quorum ballot = tally.request ballot.1 ballot.2) := by
  unfold vote
  by_cases hregi : tally.Registers ballot.1 ballot.2
  · rw [if_pos hregi]
    dsimp only
    by_cases hq : quorum ≤ ((tally.request ballot.1 ballot.2).supporters ballot.2).card
    · rw [if_pos hq]
      exact Or.inr (Or.inl ⟨hregi, hq, rfl⟩)
    · rw [if_neg hq]
      exact Or.inr (Or.inr ⟨hregi, Nat.not_le.mp hq, rfl⟩)
  · rw [if_neg hregi]
    exact Or.inl ⟨hregi, rfl⟩

/-! ## What never decreases -/

theorem current_le_vote (ballot : ι × α) : tally.current ≤ (tally.vote quorum ballot).current := by
  rcases tally.vote_cases quorum ballot with ⟨-, heq⟩ | ⟨hregi, -, heq⟩ | ⟨-, -, heq⟩
  · rw [heq]
  · rw [heq]
    exact hregi.1.le
  · rw [heq]
    exact le_rfl

omit [Fintype ι] in
theorem latest_le_request {member : ι} {level : α} (hregi : tally.Registers member level)
    (other : ι) : tally.latest other ≤ (tally.request member level).latest other := by
  rw [latest_request]
  split
  · rename_i heq
    rw [heq]
    exact hregi.2
  · exact le_rfl

theorem latest_le_vote (ballot : ι × α) (member : ι) :
    tally.latest member ≤ (tally.vote quorum ballot).latest member := by
  rcases tally.vote_cases quorum ballot with
    ⟨-, heq⟩ | ⟨hregi, -, heq⟩ | ⟨hregi, -, heq⟩
  · rw [heq]
  · rw [heq]
    exact latest_le_request hregi member
  · rw [heq]
    exact latest_le_request hregi member

/-- What one request preserves holds after any number of them. -/
theorem invariant_run {invariant : Tally ι α → Prop}
    (hvote : ∀ tally ballot, invariant tally → invariant (tally.vote quorum ballot))
    (htally : invariant tally) (ballots : List (ι × α)) :
    invariant (tally.run quorum ballots) := by
  induction ballots generalizing tally with
  | nil => exact htally
  | cons ballot ballots ih => exact ih (hvote tally ballot htally)

theorem current_le_run (ballots : List (ι × α)) :
    tally.current ≤ (tally.run quorum ballots).current :=
  @invariant_run _ _ _ _ _ quorum tally (fun next => tally.current ≤ next.current)
    (fun _ ballot hle => hle.trans (current_le_vote ballot)) le_rfl ballots

theorem latest_le_run (ballots : List (ι × α)) (member : ι) :
    tally.latest member ≤ (tally.run quorum ballots).latest member :=
  @invariant_run _ _ _ _ _ quorum tally (fun next => tally.latest member ≤ next.latest member)
    (fun _ ballot hle => hle.trans (latest_le_vote ballot member)) le_rfl ballots

/-! ## Support of the current level -/

theorem supporters_subset_vote (ballot : ι × α) (level : α) :
    tally.supporters level ⊆ (tally.vote quorum ballot).supporters level := by
  intro member hmem
  rw [mem_supporters] at hmem ⊢
  exact hmem.trans (latest_le_vote ballot member)

/-- The level of a tally is supported by a quorum, unless it is the one to start with. -/
def Supported (quorum : ℕ) (initial : α) (tally : Tally ι α) : Prop :=
  tally.current = initial ∨ quorum ≤ (tally.supporters tally.current).card

variable {initial : α}

theorem Supported.vote (h : Supported quorum initial tally) (ballot : ι × α) :
    Supported quorum initial (tally.vote quorum ballot) := by
  have hsub := @supporters_subset_vote _ _ _ _ _ quorum tally ballot tally.current
  rcases tally.vote_cases quorum ballot with ⟨-, heq⟩ | ⟨-, hq, heq⟩ | ⟨-, -, heq⟩
  · rw [heq]
    exact h
  · rw [heq]
    exact Or.inr hq
  · rw [heq] at hsub ⊢
    exact h.imp_right fun hle => hle.trans (Finset.card_le_card hsub)

theorem supported_run (h : Supported quorum initial tally) (ballots : List (ι × α)) :
    Supported quorum initial (tally.run quorum ballots) :=
  invariant_run (fun _ ballot htally => htally.vote ballot) h ballots

/-! ## Levels above the current one -/

/-- The members whose latest request is exactly a level. -/
def exactly (tally : Tally ι α) (level : α) : Finset ι :=
  Finset.univ.filter fun member => tally.latest member = level

omit [DecidableEq ι] in
theorem exactly_subset (level : α) : tally.exactly level ⊆ tally.supporters level := by
  intro member hmem
  rw [mem_supporters, (Finset.mem_filter.mp hmem).2]

/-- No level above the current one is the latest request of a quorum. -/
def Exact (quorum : ℕ) (tally : Tally ι α) : Prop :=
  ∀ level, tally.current < level → (tally.exactly level).card < quorum

theorem exactly_request {member : ι} {level other : α} (hne : other ≠ level) :
    (tally.request member level).exactly other ⊆ tally.exactly other := by
  intro voter hvoter
  have hlatest := (Finset.mem_filter.mp hvoter).2
  refine Finset.mem_filter.mpr ⟨Finset.mem_univ _, ?_⟩
  rw [latest_request] at hlatest
  split at hlatest
  · exact absurd hlatest.symm hne
  · exact hlatest

theorem Exact.vote (h : Exact quorum tally) (ballot : ι × α) :
    Exact quorum (tally.vote quorum ballot) := by
  rcases tally.vote_cases quorum ballot with
    ⟨-, heq⟩ | ⟨hregi, -, heq⟩ | ⟨-, hfew, heq⟩
  · rw [heq]
    exact h
  · rw [heq]
    intro level hlevel
    have hsub := @exactly_request _ _ _ _ _ tally ballot.1 ballot.2 level (ne_of_gt hlevel)
    exact (Finset.card_le_card hsub).trans_lt (h level (hregi.1.trans hlevel))
  · rw [heq]
    intro level hlevel
    by_cases hsame : level = ballot.2
    · rw [hsame]
      exact (Finset.card_le_card (exactly_subset _)).trans_lt hfew
    · exact (Finset.card_le_card (exactly_request hsame)).trans_lt (h level hlevel)

theorem exact_run (h : Exact quorum tally) (ballots : List (ι × α)) :
    Exact quorum (tally.run quorum ballots) :=
  invariant_run (fun _ ballot htally => htally.vote ballot) h ballots

/-! ## The order of requests -/

/-- The members that asked for a level or beyond, in the tally or by one of the requests. -/
def asked (tally : Tally ι α) (ballots : List (ι × α)) (level : α) : Finset ι :=
  Finset.univ.filter fun member =>
    level ≤ tally.latest member ∨ ∃ ballot ∈ ballots, ballot.1 = member ∧ level ≤ ballot.2

@[simp] theorem mem_asked {ballots : List (ι × α)} {level : α} {member : ι} :
    member ∈ tally.asked ballots level ↔ level ≤ tally.latest member ∨
      ∃ ballot ∈ ballots, ballot.1 = member ∧ level ≤ ballot.2 := by
  simp only [asked, Finset.mem_filter, Finset.mem_univ, true_and]

/-- A latest request is an old one or one of the requests counted. -/
theorem latest_vote (quorum : ℕ) (tally : Tally ι α) (ballot : ι × α) (member : ι) :
    (tally.vote quorum ballot).latest member = tally.latest member ∨
      (ballot.1 = member ∧ (tally.vote quorum ballot).latest member = ballot.2) := by
  have hreq : (tally.request ballot.1 ballot.2).latest member = tally.latest member ∨
      (ballot.1 = member ∧ (tally.request ballot.1 ballot.2).latest member = ballot.2) := by
    rw [latest_request]
    split
    · rename_i heq
      exact Or.inr ⟨heq.symm, rfl⟩
    · exact Or.inl rfl
  rcases tally.vote_cases quorum ballot with ⟨-, heq⟩ | ⟨-, -, heq⟩ | ⟨-, -, heq⟩
  · rw [heq]
    exact Or.inl rfl
  · rw [heq]
    exact hreq
  · rw [heq]
    exact hreq

theorem supporters_run_subset (ballots : List (ι × α)) (level : α) :
    (tally.run quorum ballots).supporters level ⊆ tally.asked ballots level := by
  induction ballots generalizing tally with
  | nil =>
    intro member hmem
    exact mem_asked.mpr (Or.inl (mem_supporters.mp hmem))
  | cons ballot ballots ih =>
    intro member hmem
    rcases mem_asked.mp (ih hmem) with hle | ⟨later, hlater, hr⟩
    · rcases tally.latest_vote quorum ballot member with heq | ⟨hvoter, heq⟩
      · exact mem_asked.mpr (Or.inl (heq ▸ hle))
      · exact mem_asked.mpr (Or.inr ⟨ballot, mem_cons_self, hvoter, heq ▸ hle⟩)
    · exact mem_asked.mpr (Or.inr ⟨later, mem_cons_of_mem _ hlater, hr⟩)

theorem le_latest_vote {ballot : ι × α} (hahead : tally.current < ballot.2) :
    ballot.2 ≤ (tally.vote quorum ballot).latest ballot.1 := by
  rcases tally.vote_cases quorum ballot with ⟨hdrop, heq⟩ | ⟨-, -, heq⟩ | ⟨-, -, heq⟩
  · rw [heq]
    by_contra hlt
    exact hdrop ⟨hahead, (not_le.mp hlt).le⟩
  · rw [heq]
    simp [latest_request]
  · rw [heq]
    simp [latest_request]

/-- Every member that asked for a level which was not reached supports it. -/
theorem asked_subset_supporters {ballots : List (ι × α)} {level : α}
    (hahead : (tally.run quorum ballots).current < level) :
    tally.asked ballots level ⊆ (tally.run quorum ballots).supporters level := by
  induction ballots generalizing tally with
  | nil =>
    intro member hmem
    simpa [run] using hmem
  | cons ballot ballots ih =>
    intro member hmem
    apply ih hahead
    rw [mem_asked] at hmem ⊢
    rcases hmem with hle | ⟨request, hreq, hvoter, hle⟩
    · exact Or.inl (hle.trans (latest_le_vote ballot member))
    · rcases mem_cons.mp hreq with rfl | hlater
      · -- The level lies beyond every level on the way, so the request was not behind.
        have hbefore : tally.current < request.2 :=
          ((current_le_run (request :: ballots)).trans_lt hahead).trans_le hle
        exact Or.inl (hvoter ▸ hle.trans (le_latest_vote hbefore))
      · exact Or.inr ⟨request, hlater, hvoter, hle⟩

/-- No level above the current one is supported by a quorum. -/
def Settled (quorum : ℕ) (tally : Tally ι α) : Prop :=
  ∀ level, tally.current < level → (tally.supporters level).card < quorum

/-- A settled tally stands at least as high as one with the same requests. -/
theorem current_le_of_settled {a b : List (ι × α)} (hsame : ∀ ballot, ballot ∈ a ↔ ballot ∈ b)
    (hsett : Settled quorum (tally.run quorum a)) :
    (tally.run quorum b).current ≤ (tally.run quorum a).current := by
  by_contra hlt
  have hlt := not_le.mp hlt
  have hasked : tally.asked b (tally.run quorum b).current
      = tally.asked a (tally.run quorum b).current := by
    ext member
    simp only [mem_asked, hsame]
  have hsupp : Supported quorum tally.current (tally.run quorum b) :=
    supported_run (Or.inl rfl) b
  rcases hsupp with hstay | hq
  · rw [hstay] at hlt
    exact absurd (current_le_run a) (not_le.mpr hlt)
  · have hsub : (tally.run quorum b).supporters (tally.run quorum b).current ⊆
        (tally.run quorum a).supporters (tally.run quorum b).current := by
      refine (supporters_run_subset b _).trans ?_
      rw [hasked]
      exact asked_subset_supporters hlt
    have hc := Finset.card_le_card hsub
    exact absurd (hsett _ hlt) (not_lt.mpr (hq.trans hc))

/-- Requests in any order lead to the same level when they leave no quorum above it. -/
theorem current_eq_of_settled {a b : List (ι × α)} (hsame : ∀ ballot, ballot ∈ a ↔ ballot ∈ b)
    (h1 : Settled quorum (tally.run quorum a)) (h2 : Settled quorum (tally.run quorum b)) :
    (tally.run quorum a).current = (tally.run quorum b).current :=
  le_antisymm (current_le_of_settled (fun ballot => (hsame ballot).symm) h2)
    (current_le_of_settled hsame h1)

/-! ## Requests for one level -/

/-- A tally that requests for one level did not raise. -/
structure Below (quorum : ℕ) (initial : Tally ι α) (level : α) (ballots : List (ι × α))
    (tally : Tally ι α) : Prop where
  current : tally.current = initial.current
  supporters : tally.supporters level = initial.asked ballots level
  beyond : ∀ member, level < tally.latest member ↔ level < initial.latest member
  few : (∃ ballot ∈ ballots, initial.latest ballot.1 ≤ level) →
    (initial.asked ballots level).card < quorum

/-- A tally that requests for one level raised to it. -/
structure Raised (quorum : ℕ) (initial : Tally ι α) (level : α) (ballots : List (ι × α))
    (tally : Tally ι α) : Prop where
  current : tally.current = level
  registered : ∃ ballot ∈ ballots, initial.latest ballot.1 ≤ level
  enough : quorum ≤ (initial.asked ballots level).card

theorem asked_append (a b : List (ι × α)) (level : α) :
    tally.asked a level ⊆ tally.asked (a ++ b) level := by
  intro member hmem
  rw [mem_asked] at hmem ⊢
  refine hmem.imp_right ?_
  rintro ⟨ballot, hballot, hr⟩
  exact ⟨ballot, mem_append_left _ hballot, hr⟩

/-- A further request for a level that is reached changes nothing. -/
theorem Raised.vote {initial : Tally ι α} {level : α} {ballots : List (ι × α)}
    (h : Raised quorum initial level ballots tally) (member : ι) :
    Raised quorum initial level (ballots ++ [(member, level)])
      (tally.vote quorum (member, level)) := by
  have hdrop : ¬ tally.Registers member level := fun hregi =>
    absurd hregi.1 (not_lt.mpr h.current.ge)
  have heq : tally.vote quorum (member, level) = tally := by
    rw [Tally.vote, if_neg hdrop]
  rw [heq]
  refine ⟨h.current, ?_, h.enough.trans (Finset.card_le_card (asked_append _ _ _))⟩
  rcases h.registered with ⟨ballot, hballot, hle⟩
  exact ⟨ballot, mem_append_left _ hballot, hle⟩

/-- A further request for a level that is not reached raises the tally or leaves it below. -/
theorem Below.vote {initial : Tally ι α} {level : α} {ballots : List (ι × α)}
    (h : Below quorum initial level ballots tally) (hahead : initial.current < level) (member : ι) :
    Below quorum initial level (ballots ++ [(member, level)])
        (tally.vote quorum (member, level)) ∨
      Raised quorum initial level (ballots ++ [(member, level)])
        (tally.vote quorum (member, level)) := by
  have hcur : tally.current < level := h.current.trans_lt hahead
  by_cases hregis : tally.Registers member level
  · -- The member supports the level now, and asked for it.
    have hinit : initial.latest member ≤ level := by
      by_contra hlt
      exact absurd ((h.beyond member).mpr (not_le.mp hlt)) (not_lt.mpr hregis.2)
    have hsupp : (tally.request member level).supporters level
        = initial.asked (ballots ++ [(member, level)]) level := by
      ext other
      have hbefore := Finset.ext_iff.mp h.supporters other
      rw [mem_supporters, mem_asked] at hbefore
      rw [mem_supporters, mem_asked, latest_request]
      by_cases ho : other = member
      · subst ho
        simp
      · rw [if_neg ho, hbefore]
        simp [Ne.symm ho]
    have hbeyond : ∀ other, level < (tally.request member level).latest other ↔
        level < initial.latest other := by
      intro other
      rw [latest_request]
      split
      · rename_i ho
        subst ho
        exact ⟨fun hlt => absurd hlt (lt_irrefl _), fun hlt => absurd hlt (not_lt.mpr hinit)⟩
      · exact h.beyond other
    have hregi : ∃ ballot ∈ ballots ++ [(member, level)],
        initial.latest ballot.1 ≤ level :=
      ⟨(member, level), mem_append_right _ mem_cons_self, hinit⟩
    rcases tally.vote_cases quorum (member, level) with
      ⟨hdrop, -⟩ | ⟨-, hq, heq⟩ | ⟨-, hfew, heq⟩
    · exact absurd hregis hdrop
    · rw [heq]
      exact Or.inr ⟨rfl, hregi, hsupp ▸ hq⟩
    · rw [heq]
      exact Or.inl ⟨h.current, hsupp, hbeyond, fun _ => hsupp ▸ hfew⟩
  · -- The member asked for more already.
    have hbeyond : level < initial.latest member := by
      rw [← h.beyond member]
      by_contra hle
      exact hregis ⟨hcur, not_lt.mp hle⟩
    have hasked : initial.asked (ballots ++ [(member, level)]) level
        = initial.asked ballots level := by
      refine subset_antisymm ?_ (asked_append _ _ _)
      intro other ho
      rw [mem_asked] at ho ⊢
      rcases ho with hle | ⟨ballot, hballot, hvoter, hle⟩
      · exact Or.inl hle
      · rcases mem_append.mp hballot with hearl | hl
        · exact Or.inr ⟨ballot, hearl, hvoter, hle⟩
        · rw [mem_singleton] at hl
          subst hl
          exact Or.inl (hvoter ▸ hbeyond.le)
    have heq : tally.vote quorum (member, level) = tally := by
      rw [Tally.vote, if_neg hregis]
    rw [heq]
    refine Or.inl ⟨h.current, by rw [h.supporters, hasked], h.beyond, ?_⟩
    rintro ⟨ballot, hballot, hle⟩
    rw [hasked]
    rcases mem_append.mp hballot with hearl | hl
    · exact h.few ⟨ballot, hearl, hle⟩
    · rw [mem_singleton] at hl
      subst hl
      exact absurd hbeyond (not_lt.mpr hle)

theorem below_or_raised {level : α} (hahead : tally.current < level) (ballots : List (ι × α))
    (hlevel : ∀ ballot ∈ ballots, ballot.2 = level) :
    Below quorum tally level ballots (tally.run quorum ballots) ∨
      Raised quorum tally level ballots (tally.run quorum ballots) := by
  induction ballots using reverseRecOn with
  | nil =>
    refine Or.inl ⟨rfl, ?_, fun _ => Iff.rfl, by simp⟩
    ext member
    simp [run]
  | append_singleton ballots ballot ih =>
    have hl : ballot = (ballot.1, level) :=
      Prod.ext rfl (hlevel ballot (mem_append_right _ mem_cons_self))
    have hrun : tally.run quorum (ballots ++ [ballot])
        = (tally.run quorum ballots).vote quorum (ballot.1, level) := by
      rw [← hl, run, foldl_append]
      rfl
    rw [hrun, hl]
    rcases ih fun o ho => hlevel o (mem_append_left _ ho) with hbelow | hraised
    · exact hbelow.vote hahead ballot.1
    · exact Or.inr (hraised.vote ballot.1)

/-- Requests for one level reach it exactly when one of them registers and a quorum has asked for
the level. -/
theorem current_run_of_level {level : α} (hahead : tally.current < level) {ballots : List (ι × α)}
    (hlevel : ∀ ballot ∈ ballots, ballot.2 = level) :
    level ≤ (tally.run quorum ballots).current ↔
      (∃ ballot ∈ ballots, tally.latest ballot.1 ≤ level) ∧
        quorum ≤ (tally.asked ballots level).card := by
  rcases below_or_raised hahead ballots hlevel with hbelow | hraised
  · constructor
    · intro hle
      rw [hbelow.current] at hle
      exact absurd hahead (not_lt.mpr hle)
    · rintro ⟨hregi, henough⟩
      exact absurd (hbelow.few hregi) (not_lt.mpr henough)
  · constructor
    · intro _
      exact ⟨hraised.registered, hraised.enough⟩
    · intro _
      exact hraised.current.ge

theorem run_of_behind {level : α} (hbehind : level ≤ tally.current) {ballots : List (ι × α)}
    (hlevel : ∀ ballot ∈ ballots, ballot.2 = level) : tally.run quorum ballots = tally := by
  induction ballots with
  | nil => rfl
  | cons ballot ballots ih =>
    have hdrop : ¬ tally.Registers ballot.1 ballot.2 := by
      rintro ⟨hahead, -⟩
      rw [hlevel ballot mem_cons_self] at hahead
      exact absurd hahead (not_lt.mpr hbehind)
    have heq : tally.vote quorum ballot = tally := by rw [vote, if_neg hdrop]
    rw [run, foldl_cons, heq]
    exact ih fun o ho => hlevel o (mem_cons_of_mem _ ho)

/-- The order of requests for one level does not matter. -/
theorem current_eq_of_level {level : α} {a b : List (ι × α)}
    (hlevel : ∀ ballot ∈ a, ballot.2 = level) (hsame : ∀ ballot, ballot ∈ a ↔ ballot ∈ b) :
    (tally.run quorum a).current = (tally.run quorum b).current := by
  have h2 : ∀ ballot ∈ b, ballot.2 = level := fun ballot hballot =>
    hlevel ballot ((hsame ballot).mpr hballot)
  rcases le_or_gt level tally.current with hbehind | hahead
  · rw [run_of_behind hbehind hlevel, run_of_behind hbehind h2]
  · have hreach := @current_run_of_level _ _ _ _ _ quorum tally level hahead a hlevel
    have hreach' := @current_run_of_level _ _ _ _ _ quorum tally level hahead b h2
    have hiff : level ≤ (tally.run quorum a).current ↔
        level ≤ (tally.run quorum b).current := by
      have hasked : tally.asked a level = tally.asked b level := by
        ext member
        simp only [mem_asked, hsame]
      rw [hreach, hreach', hasked]
      simp only [hsame]
    rcases @below_or_raised _ _ _ _ _ quorum tally level hahead a hlevel with h1 | h1
    · rcases @below_or_raised _ _ _ _ _ quorum tally level hahead b h2 with ho | ho
      · rw [h1.current, ho.current]
      · have hle := hiff.mpr ho.current.ge
        rw [h1.current] at hle
        exact absurd hahead (not_lt.mpr hle)
    · rcases @below_or_raised _ _ _ _ _ quorum tally level hahead b h2 with ho | ho
      · have hle := hiff.mp h1.current.ge
        rw [ho.current] at hle
        exact absurd hahead (not_lt.mpr hle)
      · rw [h1.current, ho.current]

end Tally
