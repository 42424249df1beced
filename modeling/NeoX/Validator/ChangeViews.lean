import Mathlib.Data.FinEnum
import NeoX.Library.Tally
import NeoX.Network.Compaction
import NeoX.Node.Symbolic
import NeoX.Validator.Counted

/-!
# View changes

The change views of a round are a cumulative tally: processing a message casts the
requests that it carries.

Main results:

- `tally_process`: processing a message only casts requests.
- `view_safety`: views and requests never go back, and a quorum of validators
  signed a request for the current view or beyond.
- `changeViews_tallied`: no view ahead is the latest request of a quorum, and when
  the order of change views does not matter.
- `changeViews_missed`: a quorum for a lower view is missed in one order and
  found in another.
-/

namespace NeoX

open List FiniteMap
namespace DbftRoundState

section ChangeViews

variable [Crypto]

/-! ## The tally of a round -/

/-- The view that the latest request of a validator asks for, zero without a request. -/
def latestTarget (round : DbftRoundState) (index : UInt8) : ℕ :=
  match round.changeViews.lookup index with
  | none => 0
  | some latest => latest.1.toNat

/-- The change views of a round as a tally of its validators' requests. -/
def tally (round : DbftRoundState) : Tally UInt8 ℕ where
  current := round.currentView.toNat
  latest := round.latestTarget

/-- The requests that a body casts. A request out of the last view has no target. -/
def ballots (data : DbftConsensusData) : DbftDecodedPayload → List (UInt8 × ℕ)
  | .changeView _ => if data.viewNumber = 255 then [] else
      [(data.validatorIndex, data.viewNumber.toNat + 1)]
  | _ => []

omit [Crypto] in
theorem toNat_target {view : UInt8} (h : view ≠ 255) : (view + 1).toNat = view.toNat + 1 := by
  have hlt : view.toNat < 255 := by
    have hle := view.toNat_lt
    have hne : view.toNat ≠ 255 := fun heq => h (UInt8.toNat.inj (heq.trans rfl))
    omega
  rw [UInt8.toNat_add]
  exact Nat.mod_eq_of_lt (by change view.toNat + 1 < 256; omega)

variable {round : DbftRoundState}

omit [Crypto] in
theorem length_filter_changeViews {view : UInt8} (hv : 0 < view) :
    (round.changeViews.toList.filter fun e => view ≤ e.2.1).length
      = (round.tally.supporters view.toNat).card := by
  rw [length_filter_toList round.changeViews fun latest => view ≤ latest.1]
  congr 1
  ext index
  rw [mem_toFinset, mem_map, Tally.mem_supporters]
  constructor
  · rintro ⟨⟨found, latest⟩, he, rfl⟩
    rcases mem_filter.mp he with ⟨he, hle⟩
    simp only [tally, latestTarget, mem_toList.mp he]
    exact UInt8.le_iff_toNat_le.mp (of_decide_eq_true hle)
  · intro hle
    simp only [tally, latestTarget] at hle
    split at hle
    · rw [UInt8.lt_iff_toNat_lt] at hv
      exact absurd hv (Nat.not_lt.mpr hle)
    · rename_i latest hget
      refine ⟨(index, latest), mem_filter.mpr ⟨mem_toList.mpr hget, ?_⟩, rfl⟩
      exact decide_eq_true (UInt8.le_iff_toNat_le.mpr hle)

/-- The round in which a validator's latest request is this message. -/
def withRequest (round : DbftRoundState) (index target : UInt8) (message : DbftMessage) :
    DbftRoundState :=
  { round with changeViews := round.changeViews.insert index (target, message) }

omit [Crypto] in
theorem tally_withRequest (round : DbftRoundState) (i target : UInt8) (message : DbftMessage) :
    (round.withRequest i target message).tally = round.tally.request i target.toNat := by
  simp only [tally, Tally.request, Tally.mk.injEq, withRequest, true_and]
  funext o
  simp only [latestTarget, lookup_insert_if, Function.update_apply]
  by_cases ho : o = i
  · simp [ho]
  · simp [ho]

variable {data : DbftConsensusData}

omit [Crypto] in
/-- A change view is a request for the view after its own. -/
theorem tally_applyChangeView (round : DbftRoundState) (message : DbftMessage)
    (hv : data.viewNumber ≠ 255) :
    (round.applyChangeView message data).2.tally
      = round.tally.vote round.quorum (data.validatorIndex, data.viewNumber.toNat + 1) := by
  have htarget := toNat_target hv
  have hreq := round.tally_withRequest data.validatorIndex (data.viewNumber + 1) message
  rw [htarget] at hreq
  have hpos : (0 : UInt8) < data.viewNumber + 1 := by
    rw [UInt8.lt_iff_toNat_lt, htarget]
    exact Nat.succ_pos _
  unfold applyChangeView Tally.vote
  rw [if_neg hv]
  dsimp only
  by_cases hbehind : data.viewNumber + 1 ≤ round.currentView
  · rw [if_pos hbehind, if_neg]
    intro hregi
    rw [UInt8.le_iff_toNat_le, htarget] at hbehind
    exact absurd hregi.1 (Nat.not_lt.mpr hbehind)
  rw [if_neg hbehind]
  have hahead : round.currentView.toNat < data.viewNumber.toNat + 1 := by
    rw [UInt8.le_iff_toNat_le, htarget] at hbehind
    exact Nat.not_le.mp hbehind
  by_cases hlower : ∃ latest ∈ round.changeViews.lookup data.validatorIndex,
      data.viewNumber + 1 < latest.1
  · rw [if_pos hlower, if_neg]
    rintro ⟨-, hle⟩
    rcases hlower with ⟨latest, hget, hlt⟩
    rw [UInt8.lt_iff_toNat_lt, htarget] at hlt
    simp only [tally, latestTarget, Option.mem_def.mp hget] at hle
    exact absurd hlt (Nat.not_lt.mpr hle)
  · have hregi : round.tally.Registers data.validatorIndex (data.viewNumber.toNat + 1) := by
      refine ⟨hahead, ?_⟩
      simp only [tally, latestTarget]
      split
      · exact Nat.zero_le _
      · rename_i latest hget
        rw [← htarget, ← UInt8.le_iff_toNat_le]
        exact UInt8.not_lt.mp fun hlt => hlower ⟨latest, hget, hlt⟩
    rw [if_neg hlower, if_pos hregi]
    have hvotes := @length_filter_changeViews
      (round.withRequest data.validatorIndex (data.viewNumber + 1) message) _ hpos
    rw [hreq, htarget] at hvotes
    by_cases hq : round.quorum ≤ ((round.tally.request data.validatorIndex
        (data.viewNumber.toNat + 1)).supporters (data.viewNumber.toNat + 1)).card
    · rw [if_pos hq, if_pos (hvotes.symm ▸ hq)]
      rw [← hreq, ← htarget]
      rfl
    · rw [if_neg hq, if_neg (hvotes.symm ▸ hq), ← hreq]
      rfl

/-- Only change views touch the requests and the current view. -/
theorem changeViews_applyPayload (round : DbftRoundState) (message : DbftMessage)
    (data : DbftConsensusData) {p : DbftDecodedPayload} (hp : ∀ body, p ≠ .changeView body) :
    (round.applyPayload message data p).2.changeViews = round.changeViews ∧
      (round.applyPayload message data p).2.currentView = round.currentView := by
  have happlied := round.applied message data p
  generalize (round.applyPayload message data p).2 = next at happlied ⊢
  cases happlied with
  | tally => exact absurd rfl (hp _)
  | enter => exact absurd rfl (hp _)
  | commit =>
    refine refreshVerifiedSeal_induction (motive := fun next =>
      next.changeViews = round.changeViews ∧ next.currentView = round.currentView) ?_ _ ?_
    · exact ⟨rfl, rfl⟩
    · exact fun _ => ⟨rfl, rfl⟩
  | _ => exact ⟨rfl, rfl⟩

omit [Crypto] in
theorem tally_congr {next : DbftRoundState} (hviews : next.changeViews = round.changeViews)
    (hcur : next.currentView = round.currentView) : next.tally = round.tally := by
  rw [tally, tally, hcur, Tally.mk.injEq]
  refine ⟨rfl, ?_⟩
  funext i
  rw [latestTarget, latestTarget, hviews]

/-- Applying a body casts its requests. -/
theorem tally_applyPayload (round : DbftRoundState) (message : DbftMessage)
    (data : DbftConsensusData) (p : DbftDecodedPayload) :
    (round.applyPayload message data p).2.tally
      = round.tally.run round.quorum (ballots data p) := by
  cases p with
  | changeView body =>
    rw [applyPayload, ballots]
    by_cases hv : data.viewNumber = 255
    · rw [applyChangeView, if_pos hv, if_pos hv]
      rfl
    · rw [if_neg hv, tally_applyChangeView round message hv]
      rfl
  | _ =>
    refine tally_congr (changeViews_applyPayload round message data ?_).1
      (changeViews_applyPayload round message data ?_).2
    · rintro body ⟨⟩
    · rintro body ⟨⟩

theorem tally_process (h : Consistent round) (message : DbftMessage) :
    ∃ cast, (round.process message).2.tally = round.tally.run round.quorum cast := by
  have hst : Consistent round ∧ Keeps round round ∧
      ∃ cast, round.tally = round.tally.run round.quorum cast :=
    ⟨h, Keeps.refl round, [], rfl⟩
  refine (@process_induction _ _ (fun next => Consistent next ∧ Keeps round next ∧
    ∃ cast, next.tally = round.tally.run round.quorum cast) ?_ ?_ hst message).2.2
  · rintro next found data p ⟨hn, hkeeps, cast, hcast⟩ ha hprior -
    refine ⟨hn.recordApply ha hprior, (hkeeps.trans (hn.keeps_record hprior)).trans
      (votesOnly_applyPayload _ _ _ _).keeps, cast ++ ballots data p, ?_⟩
    have hrec : (next.record found data).tally = next.tally := rfl
    have hq : (next.record found data).quorum = round.quorum := hkeeps.extended.quorum
    rw [tally_applyPayload, hrec, hq, hcast, Tally.run, Tally.run, Tally.run, foldl_append]
  · rintro next found data rec ⟨hn, hkeeps, cast, hcast⟩ ha
    exact ⟨hn.keepRecovery ha, hkeeps.trans (keeps_keepRecovery ha), cast, hcast⟩

theorem tally_run (h : Consistent round) (msgs : List DbftMessage) :
    ∃ cast, (Machine.run perform round (msgs.map .process)).tally
      = round.tally.run round.quorum cast := by
  induction msgs generalizing round with
  | nil => exact ⟨[], rfl⟩
  | cons message msgs ih =>
    rcases tally_process h message with ⟨a, h1⟩
    rcases ih (h.process message) with ⟨rest, hr⟩
    refine ⟨a ++ rest, ?_⟩
    rw [map_cons, Machine.run_cons, perform, hr, h1, (h.keeps_process message).extended.quorum,
      Tally.run, Tally.run, Tally.run, foldl_append]

/-! ## Signed requests -/

/-- Every latest request is a change view that its validator signed, for the view after its own. -/
def Requested (round : DbftRoundState) : Prop :=
  ∀ index latest, round.changeViews.lookup index = some latest →
    ∃ data body, round.Authentic latest.2 data (.changeView body) ∧ data.validatorIndex = index ∧
      latest.1.toNat = data.viewNumber.toNat + 1

theorem Requested.mono {next : DbftRoundState} (h : Requested round) (hext : Extends round next)
    (hviews : next.changeViews = round.changeViews) : Requested next := by
  intro i latest hget
  rw [hviews] at hget
  rcases h i latest hget with ⟨data, body, ha, hr⟩
  exact ⟨data, body, ha.mono hext, hr⟩

variable {message : DbftMessage}

/-- A change view that is stored is the one that was signed. -/
theorem Requested.applyChangeView (h : Requested round) {body : DbftChangeView}
    (ha : round.Authentic message data (.changeView body)) :
    Requested (round.applyChangeView message data).2 := by
  by_cases hv : data.viewNumber = 255
  · rw [DbftRoundState.applyChangeView, if_pos hv]
    exact h
  have hstored : ∀ next : DbftRoundState, Extends round next →
      next.changeViews = round.changeViews.insert data.validatorIndex
        (data.viewNumber + 1, message) → Requested next := by
    intro next hext hviews i latest hget
    rw [hviews, lookup_insert_if] at hget
    split at hget
    · rename_i hi
      cases hget
      exact ⟨data, body, ha.mono hext, hi.symm, toNat_target hv⟩
    · rcases h i latest hget with ⟨earlier, found, hf, hr⟩
      exact ⟨earlier, found, hf.mono hext, hr⟩
  have happlied := round.applied message data (.changeView body)
  rw [applyPayload] at happlied
  generalize (round.applyChangeView message data).2 = next at happlied ⊢
  cases happlied with
  | same => exact h
  | _ => exact hstored _ ⟨rfl, rfl, rfl, fun _ _ _ h => h⟩ rfl

theorem Requested.process (hrd : Consistent round) (h : Requested round) (message : DbftMessage) :
    Requested (round.process message).2 := by
  refine (@process_induction _ _ (fun next => Consistent next ∧ Requested next) ?_ ?_ ⟨hrd, h⟩
    message).2
  · rintro next found data p ⟨hn, hrequ⟩ ha hprior -
    refine ⟨hn.recordApply ha hprior, ?_⟩
    have hext : Extends next (next.record found data) := hn.extends_record hprior
    have hrec : Requested (next.record found data) := hrequ.mono hext rfl
    cases p with
    | changeView body =>
      exact hrec.applyChangeView ((authenticate_eq_ok.mp ha).1.mono hext)
    | _ =>
      refine hrec.mono (extends_applyPayload _ _ _ _) (changeViews_applyPayload _ _ _ ?_).1
      rintro body ⟨⟩
  · rintro next found data rec ⟨hn, hrequ⟩ ha
    exact ⟨hn.keepRecovery ha, hrequ.mono (keeps_keepRecovery ha).extended rfl⟩

theorem requested_run (height : UInt64) (vals : ValidatorSet) (antiMev : Bool)
    (msgs : List DbftMessage) :
    Requested (Machine.run perform (start height vals antiMev) (msgs.map .process)) := by
  have hboth : ∀ round, Consistent round → Requested round →
      Requested (Machine.run perform round (msgs.map .process)) := by
    induction msgs with
    | nil => exact fun _ _ h => h
    | cons message msgs ih =>
      intro round hrd h
      exact ih _ (hrd.process message) (h.process hrd message)
  refine hboth _ (consistent_start height vals antiMev) ?_
  intro i latest hget
  simp [start] at hget

theorem supported_process_run (height : UInt64) (vals : ValidatorSet) (antiMev : Bool)
    (msgs : List DbftMessage) :
    Tally.Supported (start height vals antiMev).quorum 0
      (Machine.run perform (start height vals antiMev) (msgs.map .process)).tally := by
  rcases tally_run (consistent_start height vals antiMev) msgs with ⟨cast, hcast⟩
  rw [hcast]
  exact Tally.supported_run (Or.inl rfl) cast

/--
However messages are processed, the current view and the target of every validator's latest change
view never decrease, and a view above zero rests on change views for it or beyond that a quorum of
validators signed.
-/
theorem view_safety (height : UInt64) (validators : ValidatorSet) (antiMev : Bool)
    (messages more : List DbftMessage) :
    (Machine.run perform (start height validators antiMev) (messages.map .process)).currentView
      ≤ (Machine.run perform (start height validators antiMev)
        ((messages ++ more).map .process)).currentView ∧
    (∀ index latest,
      (Machine.run perform (start height validators antiMev)
        (messages.map .process)).changeViews.lookup index = some latest →
      ∃ newer, (Machine.run perform (start height validators antiMev)
        ((messages ++ more).map .process)).changeViews.lookup index = some newer ∧
        latest.1 ≤ newer.1) ∧
    (0 < (Machine.run perform (start height validators antiMev)
        (messages.map .process)).currentView →
      ∃ voters : Finset UInt8, (start height validators antiMev).quorum ≤ voters.card ∧
        ∀ index ∈ voters, ∃ message data body,
          (start height validators antiMev).Authentic message data (.changeView body) ∧
          data.validatorIndex = index ∧
          (Machine.run perform (start height validators antiMev)
            (messages.map .process)).currentView.toNat ≤ data.viewNumber.toNat + 1) := by
  have hstart := consistent_start height validators antiMev
  have hkeeps := hstart.keeps_run messages
  have hrequested := requested_run height validators antiMev messages
  have hsupported := supported_process_run height validators antiMev messages
  have hlater : Machine.run perform (start height validators antiMev)
      ((messages ++ more).map .process)
      = Machine.run perform (Machine.run perform (start height validators antiMev)
        (messages.map .process)) (more.map .process) := by
    rw [List.map_append, Machine.run, List.foldl_append]
    rfl
  rw [hlater]
  have hround := consistent_run height validators antiMev (messages.map .process)
  generalize Machine.run perform (start height validators antiMev) (messages.map .process)
    = round at *
  rcases tally_run hround more with ⟨cast, hcast⟩
  refine ⟨?_, ?_, ?_⟩
  · have hle := @Tally.current_le_run _ _ _ _ _ round.quorum round.tally cast
    rw [← hcast] at hle
    exact UInt8.le_iff_toNat_le.mpr hle
  · intro index latest hlookup
    have hle := @Tally.latest_le_run _ _ _ _ _ round.quorum round.tally cast index
    rw [← hcast] at hle
    rcases hrequested index latest hlookup with ⟨data, body, -, -, htarget⟩
    simp only [tally, latestTarget, hlookup, htarget] at hle
    split at hle
    · omega
    · rename_i newer hnewer
      rw [← htarget] at hle
      exact ⟨newer, hnewer, UInt8.le_iff_toNat_le.mpr hle⟩
  · intro hpositive
    rw [UInt8.lt_iff_toNat_lt] at hpositive
    rcases hsupported with hzero | hquorum
    · exact absurd hzero (Nat.ne_of_gt hpositive)
    · refine ⟨_, hquorum, ?_⟩
      intro index hindex
      rw [Tally.mem_supporters] at hindex
      simp only [tally, latestTarget] at hindex
      split at hindex
      · exact absurd hpositive (Nat.not_lt.mpr hindex)
      · rename_i latest hlookup
        rcases hrequested index latest hlookup with ⟨data, body, hauth, hdata, htarget⟩
        refine ⟨latest.2, data, body, ?_, hdata, htarget ▸ hindex⟩
        exact ⟨hauth.witness, hauth.last.trans hkeeps.extended.height,
          hkeeps.extended.height ▸ hauth.start, hauth.data_eq, hauth.payload_eq,
          hkeeps.extended.validators ▸ hauth.sender⟩

/-! ## Views ahead -/

omit [Crypto] in
theorem quorum_pos (round : DbftRoundState) : 0 < round.quorum := by
  have hc : 0 < round.count := length_pos_of_ne_nil round.validators.nonempty
  rw [quorum, bftHonestNodeCount]
  omega

/-- No view ahead is asked for by a quorum, each member for this view or beyond. -/
def Settled (round : DbftRoundState) : Prop :=
  ∀ view, round.currentView < view →
    (round.changeViews.toList.filter fun entry => view ≤ entry.2.1).length < round.quorum

omit [Crypto] in
theorem Settled.tally (h : Settled round) : Tally.Settled round.quorum round.tally := by
  intro level hlevel
  by_cases hr : level < 256
  · have hnat : (UInt8.ofNat level).toNat = level := UInt8.toNat_ofNat_of_lt' hr
    have hahead : round.currentView < UInt8.ofNat level := by
      rw [UInt8.lt_iff_toNat_lt, hnat]
      exact hlevel
    have hpos : 0 < UInt8.ofNat level := by
      rw [UInt8.lt_iff_toNat_lt, hnat]
      exact Nat.zero_lt_of_lt hlevel
    have hfew := h _ hahead
    rw [length_filter_changeViews hpos, hnat] at hfew
    exact hfew
  · -- There is no such view, and no request for it.
    have hempty : round.tally.supporters level = ∅ := by
      apply Finset.eq_empty_of_forall_notMem
      intro i hi
      rw [Tally.mem_supporters] at hi
      simp only [DbftRoundState.tally, latestTarget] at hi
      split at hi
      · omega
      · rename_i latest _
        have hlt := latest.1.toNat_lt
        omega
    rw [hempty, Finset.card_empty]
    exact round.quorum_pos

omit [Crypto] in
theorem length_filter_exactly_le (round : DbftRoundState) (view : UInt8) :
    (round.changeViews.toList.filter fun e => e.2.1 = view).length
      ≤ (round.tally.exactly view.toNat).card := by
  rw [length_filter_toList round.changeViews fun latest => latest.1 = view]
  apply Finset.card_le_card
  intro i hi
  rw [mem_toFinset, mem_map] at hi
  rcases hi with ⟨⟨found, latest⟩, he, rfl⟩
  rcases mem_filter.mp he with ⟨he, hsame⟩
  refine Finset.mem_filter.mpr ⟨Finset.mem_univ _, ?_⟩
  simp only [tally, latestTarget, mem_toList.mp he]
  rw [of_decide_eq_true hsame]

theorem exact_process_run (height : UInt64) (vals : ValidatorSet) (antiMev : Bool)
    (msgs : List DbftMessage) :
    Tally.Exact (start height vals antiMev).quorum
      (Machine.run perform (start height vals antiMev) (msgs.map .process)).tally := by
  rcases tally_run (consistent_start height vals antiMev) msgs with ⟨cast, hcast⟩
  rw [hcast]
  apply Tally.exact_run
  intro level hlevel
  have hempty : (start height vals antiMev).tally.exactly level = ∅ := by
    apply Finset.eq_empty_of_forall_notMem
    intro i hi
    have h0 := (Finset.mem_filter.mp hi).2
    rw [← h0] at hlevel
    exact absurd hlevel (lt_irrefl _)
  rw [hempty, Finset.card_empty]
  exact quorum_pos _

/-- The requests that a message casts. -/
def ballotsOf (round : DbftRoundState) (message : DbftMessage) : List (UInt8 × ℕ) :=
  match round.authenticate message with
  | .error _ => []
  | .ok (data, payload) => ballots data payload

theorem level_ballotsOf (hd : message.consensusData = .ok data) {ballot : UInt8 × ℕ}
    (hballot : ballot ∈ round.ballotsOf message) : ballot.2 = data.viewNumber.toNat + 1 := by
  unfold ballotsOf at hballot
  cases ha : round.authenticate message with
  | error error =>
    rw [ha] at hballot
    cases hballot
  | ok accepted =>
    rcases accepted with ⟨found, p⟩
    have hf := (authenticate_eq_ok.mp ha).1.data_eq
    rw [hd] at hf
    cases hf
    rw [ha] at hballot
    cases p with
    | changeView body =>
      simp only [ballots] at hballot
      split at hballot
      · cases hballot
      · rw [mem_singleton.mp hballot]
    | _ => cases hballot

theorem ballotsOf_extends {next : DbftRoundState} (h : Extends round next)
    (hk : kindOf message = some .changeView) :
    next.ballotsOf message = round.ballotsOf message := by
  have hallo : ∀ o : DbftRoundState, ∀ data, message.consensusData = .ok data →
      o.viewAllowed data = true := by
    intro o data hd
    rw [kindOf_eq hd] at hk
    rw [viewAllowed, Option.some.inj hk]
  have hsame : ∀ accepted, next.authenticate message = .ok accepted ↔
      round.authenticate message = .ok accepted := by
    rintro ⟨data, p⟩
    rw [authenticate_eq_ok, authenticate_eq_ok]
    constructor
    · rintro ⟨ha, -⟩
      exact ⟨⟨ha.witness, h.height ▸ ha.last, h.height ▸ ha.start, ha.data_eq,
        ha.payload_eq, h.validators ▸ ha.sender⟩, hallo round data ha.data_eq⟩
    · rintro ⟨ha, -⟩
      exact ⟨ha.mono h, hallo next data ha.data_eq⟩
  unfold ballotsOf
  cases hrd : round.authenticate message with
  | ok accepted => rw [(hsame accepted).mpr hrd]
  | error error =>
    cases hn : next.authenticate message with
    | ok accepted =>
      rw [(hsame accepted).mp hn] at hrd
      cases hrd
    | error o => rfl

/-- Processing a change view casts its request. -/
theorem tally_process_changeView (round : DbftRoundState) (hk : kindOf message = some .changeView) :
    (round.process message).2.tally = round.tally.run round.quorum (round.ballotsOf message) := by
  unfold ballotsOf process processWith
  cases ha : round.authenticate message with
  | error error => rfl
  | ok accepted =>
    rcases accepted with ⟨data, p⟩
    have hauth := (authenticate_eq_ok.mp ha).1
    rw [kindOf_eq hauth.data_eq] at hk
    have htype := hauth.kind_eq
    have hprior : round.priorHash data = none := by
      rw [priorHash, Option.some.inj hk]
      rfl
    rw [Option.some.inj hk] at htype
    simp only [hprior]
    cases p with
    | changeView body => exact tally_applyPayload (round.record message data) message data _
    | _ => cases htype

/-- Processing change views casts their requests. -/
theorem tally_run_changeViews (h : Consistent round) {msgs : List DbftMessage}
    (hk : ∀ message ∈ msgs, kindOf message = some .changeView) :
    (Machine.run perform round (msgs.map .process)).tally
      = round.tally.run round.quorum (msgs.flatMap round.ballotsOf) := by
  induction msgs generalizing round with
  | nil => rfl
  | cons message msgs ih =>
    have hr : ∀ o ∈ msgs, kindOf o = some .changeView :=
      fun o ho => hk o (mem_cons_of_mem _ ho)
    have hext := h.extends_process message
    have hball : msgs.flatMap (round.process message).2.ballotsOf
        = msgs.flatMap round.ballotsOf :=
      flatMap_congr fun o ho => ballotsOf_extends hext (hr o ho)
    rw [map_cons, Machine.run_cons, perform, ih (h.process message) hr, hball,
      tally_process_changeView round (hk message mem_cons_self), hext.quorum,
      flatMap_cons, Tally.run, Tally.run, Tally.run, foldl_append]

/--
In every round reached by processing messages, no view ahead is the target of the latest change
views of a quorum. Change views lead to the same view in any order, when they leave no view ahead
that a quorum asks for or beyond, and when all of them have one target.
-/
theorem changeViews_tallied (height : UInt64) (validators : ValidatorSet) (antiMev : Bool)
    (messages : List DbftMessage) :
    (∀ view, (Machine.run perform (start height validators antiMev)
        (messages.map .process)).currentView < view →
      ((Machine.run perform (start height validators antiMev)
        (messages.map .process)).changeViews.toList.filter fun entry => entry.2.1 = view).length
        < (start height validators antiMev).quorum) ∧
    (∀ first second : List DbftMessage, first.Perm second →
      (∀ message ∈ first, kindOf message = some .changeView) →
      (Machine.run perform (start height validators antiMev)
        ((messages ++ first).map .process)).Settled →
      (Machine.run perform (start height validators antiMev)
        ((messages ++ second).map .process)).Settled →
      (Machine.run perform (start height validators antiMev)
          ((messages ++ first).map .process)).currentView
        = (Machine.run perform (start height validators antiMev)
          ((messages ++ second).map .process)).currentView) ∧
    (∀ view : UInt8, ∀ first second : List DbftMessage, first.Perm second →
      (∀ message ∈ first, ∃ data, message.consensusData = .ok data ∧
        data.messageType = .changeView ∧ data.viewNumber = view) →
      (Machine.run perform (start height validators antiMev)
          ((messages ++ first).map .process)).currentView
        = (Machine.run perform (start height validators antiMev)
          ((messages ++ second).map .process)).currentView) := by
  have hround := consistent_run height validators antiMev (messages.map .process)
  have hquorum : (Machine.run perform (start height validators antiMev)
      (messages.map .process)).quorum = (start height validators antiMev).quorum :=
    ((consistent_start height validators antiMev).extends_run _).quorum
  have hexact := exact_process_run height validators antiMev messages
  have hsplit : ∀ more : List DbftMessage,
      Machine.run perform (start height validators antiMev) ((messages ++ more).map .process)
        = Machine.run perform (Machine.run perform (start height validators antiMev)
          (messages.map .process)) (more.map .process) := by
    intro more
    rw [List.map_append, Machine.run, List.foldl_append]
    rfl
  simp only [hsplit]
  generalize Machine.run perform (start height validators antiMev) (messages.map .process)
    = round at *
  have hcast : ∀ {first second : List DbftMessage}, first.Perm second → ∀ ballot,
      ballot ∈ first.flatMap round.ballotsOf ↔ ballot ∈ second.flatMap round.ballotsOf := by
    intro first second hperm ballot
    exact (hperm.flatMap_right _).mem_iff
  refine ⟨?_, ?_, ?_⟩
  · intro view hview
    refine (round.length_filter_exactly_le view).trans_lt (hexact _ ?_)
    exact UInt8.lt_iff_toNat_lt.mp hview
  · intro first second hperm hfirst hsettled hsettled'
    have hsecond : ∀ message ∈ second, kindOf message = some .changeView :=
      fun message hmem => hfirst message (hperm.mem_iff.mpr hmem)
    have htally := hsettled.tally
    have htally' := hsettled'.tally
    rw [tally_run_changeViews hround hfirst, (hround.extends_run _).quorum] at htally
    rw [tally_run_changeViews hround hsecond, (hround.extends_run _).quorum] at htally'
    have hcurrent := Tally.current_eq_of_settled (hcast hperm) htally htally'
    rw [← tally_run_changeViews hround hfirst, ← tally_run_changeViews hround hsecond] at hcurrent
    exact UInt8.toNat.inj hcurrent
  · intro view first second hperm hview
    have hfirst : ∀ message ∈ first, kindOf message = some .changeView := by
      intro message hmem
      rcases hview message hmem with ⟨data, hdata, hkind, -⟩
      rw [kindOf_eq hdata, hkind]
    have hsecond : ∀ message ∈ second, kindOf message = some .changeView :=
      fun message hmem => hfirst message (hperm.mem_iff.mpr hmem)
    have hlevel : ∀ ballot ∈ first.flatMap round.ballotsOf, ballot.2 = view.toNat + 1 := by
      intro ballot hballot
      rcases List.mem_flatMap.mp hballot with ⟨message, hmem, hballot⟩
      rcases hview message hmem with ⟨data, hdata, -, hnumber⟩
      rw [← hnumber]
      exact level_ballotsOf hdata hballot
    have hcurrent := @Tally.current_eq_of_level _ _ _ _ _ round.quorum round.tally _ _ _ hlevel
      (hcast hperm)
    rw [← tally_run_changeViews hround hfirst, ← tally_run_changeViews hround hsecond] at hcurrent
    exact UInt8.toNat.inj hcurrent

end ChangeViews
/-! ### Rounds of four validators -/

open Symbolic

/-- The round of a node that has processed these messages. -/
def processed (messages : List DbftMessage) : DbftRoundState :=
  Machine.run perform (start 1 committee false) (messages.map .process)

def changeViewMessage (index view : UInt8) : DbftMessage :=
  signed 1 index view .changeView (DbftChangeView.codec.encode (DbftChangeView.new 0 .timeout))

/-- Three requests for the first view lead to it in either order. -/
theorem changeViews_tallied_committee :
    (processed [changeViewMessage 0 0, changeViewMessage 1 0, changeViewMessage 2 0]).currentView
      = (processed [changeViewMessage 2 0, changeViewMessage 1 0,
        changeViewMessage 0 0]).currentView := by
  have hdata : ∀ message ∈ [changeViewMessage 0 0, changeViewMessage 1 0, changeViewMessage 2 0],
      ∃ data, message.consensusData = .ok data ∧ data.messageType = .changeView ∧
        data.viewNumber = 0 := by
    have hone : ∀ index ∈ [(0 : UInt8), 1, 2], (changeViewMessage index 0).consensusData = .ok
        ⟨.changeView, 1, index, 0,
          DbftChangeView.codec.encode (DbftChangeView.new 0 .timeout)⟩ := by
      decide +kernel
    intro message hmem
    simp only [List.mem_cons, List.not_mem_nil, or_false] at hmem
    rcases hmem with rfl | rfl | rfl
    · exact ⟨_, hone 0 (by decide), rfl, rfl⟩
    · exact ⟨_, hone 1 (by decide), rfl, rfl⟩
    · exact ⟨_, hone 2 (by decide), rfl, rfl⟩
  exact (changeViews_tallied 1 committee false []).2.2 0 _ _
    (List.reverse_perm [changeViewMessage 2 0, changeViewMessage 1 0, changeViewMessage 0 0]) hdata

/-- Two requests for the first view and one for the second: the request for the second view
completes the quorum for the first, which is not tallied. In another order it is. -/
theorem changeViews_missed :
    (processed [changeViewMessage 0 0, changeViewMessage 1 0, changeViewMessage 2 1]).currentView
      = 0 ∧
    (processed [changeViewMessage 0 0, changeViewMessage 1 0, changeViewMessage 2 1]).quorum
      ≤ ((processed [changeViewMessage 0 0, changeViewMessage 1 0,
        changeViewMessage 2 1]).changeViews.toList.filter fun entry => 1 ≤ entry.2.1).length ∧
    (processed [changeViewMessage 2 1, changeViewMessage 0 0, changeViewMessage 1 0]).currentView
      = 1 := by
  decide +kernel

end DbftRoundState
end NeoX
