import NeoX.Node.DkgReplay

/-!
# Stores rebuilt from canonical rounds

A store that followed all rounds live is the store that is rebuilt from the contributions and the
epoch of the last round alone, whatever store of the validator the replay starts from.

Main results:

- `DkgReplay.following_run`: over every sequence of calls, the unfinished groups hold
  shares of the contributions of the round only.
- `DkgReplay.rebuild_eq_live`: what is rebuilt is the store that followed the rounds.
-/

namespace NeoX

open DkgKeyStore
open Except hiding ok error
namespace DkgReplay

variable {out : DkgReplayOutcome} {canonical : DkgCanonicalRound} {pendingIndex : Option UInt64}

section Rebuild

variable [Ecies] {parameters : DkgParameters}

/-! ## What a round leaves alone -/

/-- The round, the validator and the settled group are the same. -/
structure Keeps (store next : DkgKeyStore parameters) : Prop where
  round_eq : next.round = store.round
  address_eq : next.validatorAddress = store.validatorAddress
  key_eq : next.messagePrivateKey = store.messagePrivateKey
  shared_eq : next.shared = store.shared

theorem Keeps.refl (store : DkgKeyStore parameters) : Keeps store store := ⟨rfl, rfl, rfl, rfl⟩

theorem Keeps.trans {a b third : DkgKeyStore parameters} (h : Keeps a b)
    (hn : Keeps b third) : Keeps a third where
  round_eq := hn.round_eq.trans h.round_eq
  address_eq := hn.address_eq.trans h.address_eq
  key_eq := hn.key_eq.trans h.key_eq
  shared_eq := hn.shared_eq.trans h.shared_eq

theorem keeps_withUnfinished (store : DkgKeyStore parameters) (kind : DkgKeyStore.ReceivingGroup)
    (group : DkgKeyGroup parameters) : Keeps store (store.withUnfinished kind group) := by
  cases kind with
  | sharing => exact ⟨rfl, rfl, rfl, rfl⟩
  | resharing => exact ⟨rfl, rfl, rfl, rfl⟩

variable [Curve] {store next : DkgKeyStore parameters}
  {kind : DkgKeyStore.ReceivingGroup} {cs : List DkgStoredContribution} {count : Nat}

theorem keeps_receiveContributions {pendingIndex : UInt64}
    (h : receiveContributions kind pendingIndex cs store = .ok (count, next)) :
    Keeps store next := by
  induction cs generalizing store count with
  | nil =>
    cases h
    exact Keeps.refl _
  | cons contribution cs ih =>
    obtain ⟨⟨fresh, mid⟩, hrecv, h⟩ := mapError_bind h
    rcases bind_ok h with ⟨⟨rest, last⟩, hr, h⟩
    cases h
    rcases receive_spec kind hrecv with ⟨group, share, -, -, -, -, rfl⟩
    exact (keeps_withUnfinished store kind _).trans (ih hr)

theorem keeps_receiveRecoveries {pvss : Bytes} {recoveries : List DkgStoredRecovery}
    (h : receiveRecoveries pvss recoveries store = .ok (count, next)) :
    Keeps store next ∧ ∀ kind, next.unfinished kind = store.unfinished kind := by
  induction recoveries generalizing store count with
  | nil =>
    cases h
    exact ⟨Keeps.refl _, fun _ => rfl⟩
  | cons recovery recoveries ih =>
    obtain ⟨⟨fresh, mid⟩, hrecv, h⟩ := mapError_bind h
    rcases bind_ok h with ⟨⟨rest, last⟩, hr, h⟩
    cases h
    rcases bind_ok hrecv with ⟨recovering, -, h⟩
    iterate 4 obtain ⟨_, h⟩ := of_bind h
    rcases bind_ok h with ⟨⟨flag, group⟩, -, h⟩
    cases h
    rcases ih hr with ⟨hkeeps, hunfi⟩
    refine ⟨⟨hkeeps.round_eq, hkeeps.address_eq, hkeeps.key_eq, hkeeps.shared_eq⟩,
      fun kind => (hunfi kind).trans ?_⟩
    cases kind with
    | sharing => rfl
    | resharing => rfl

/-- Contributions that are applied pass the checks, and the groups of a member receive them. -/
theorem applyDkgCanonicalRound_spec
    (h : applyDkgCanonicalRound store pendingIndex canonical = .ok (out, next)) :
    validateStoreRound store canonical.round = .ok () ∧
    validateRoundContributions canonical parameters = .ok () ∧
    ((pendingIndex = none ∧ next = store) ∨
      ∃ i mid shares reshares, pendingIndex = some i ∧
        validateIndex i parameters = .ok () ∧ store.sharing.isSome = true ∧
        (canonical.reshares = [] ∨ store.resharing.isSome = true) ∧
        receiveContributions .sharing i canonical.shares store = .ok (shares, mid) ∧
        receiveContributions .resharing i canonical.reshares mid = .ok (reshares, next)) := by
  rcases bind_ok h with ⟨_, hrd, h⟩
  rcases bind_ok h with ⟨_, hval, h⟩
  refine ⟨hrd, hval, ?_⟩
  cases pendingIndex with
  | none =>
    cases h
    exact .inl ⟨rfl, rfl⟩
  | some i =>
    rcases bind_ok h with ⟨_, hi, h⟩
    obtain ⟨hshar, h⟩ := require_bind h
    obtain ⟨hresha, h⟩ := require_bind h
    rcases bind_ok h with ⟨⟨shares, mid⟩, hshs, h⟩
    rcases bind_ok h with ⟨⟨reshares, last⟩, hresh, h⟩
    cases h
    exact .inr ⟨i, mid, shares, reshares, rfl, hi, hshar, hresha, hshs,
      hresh⟩

theorem keeps_applyDkgCanonicalRound
    (h : applyDkgCanonicalRound store pendingIndex canonical = .ok (out, next)) :
    Keeps store next := by
  rcases (applyDkgCanonicalRound_spec h).2.2 with
    ⟨-, rfl⟩ | ⟨index, mid, shares, reshares, -, -, -, -, hshs, hresh⟩
  · exact Keeps.refl next
  · exact (keeps_receiveContributions hshs).trans (keeps_receiveContributions hresh)

/-! ## Groups that follow a round -/

variable [Cipher] [PredictableScalars]

/-- The unfinished groups of a store hold shares of the contributions of a round only, and the group
of the key before is there exactly if it is expected. -/
structure Following (key : DkgMessagePrivateKey) (round : UInt64) (chainId : U256)
    (pendingIndex : Option UInt64) (full : DkgCanonicalRound) (reshares : Bool)
    (store : DkgKeyStore parameters) : Prop where
  key_eq : store.messagePrivateKey = key
  gathered : ∀ kind group, store.unfinished kind = some group →
    Gathered key round chainId pendingIndex (full.contributions kind) kind group
  resharing_isSome : store.sharing.isSome = true → store.resharing.isSome = reshares

section Follow

variable {key : DkgMessagePrivateKey} {round : UInt64} {chainId : U256}
  {pendingIndex : Option UInt64} {full : DkgCanonicalRound} {reshares : Bool}
  {store next : DkgKeyStore parameters}

theorem Following.of_unfinished (h : Following key round chainId pendingIndex full reshares store)
    (hkeeps : Keeps store next) (hunfi : ∀ kind, next.unfinished kind = store.unfinished kind) :
    Following key round chainId pendingIndex full reshares next where
  key_eq := hkeeps.key_eq.trans h.key_eq
  gathered kind group hg := h.gathered kind group (hunfi kind ▸ hg)
  resharing_isSome hsome := by
    have hshar : next.sharing = store.sharing := hunfi .sharing
    have hresh : next.resharing = store.resharing := hunfi .resharing
    rw [hresh]
    exact h.resharing_isSome (hshar ▸ hsome)

/-- A group that collects contributions of the round still holds shares of the round only. -/
theorem Gathered.collects {i : UInt64} {all : List DkgStoredContribution}
    {group collected : DkgKeyGroup parameters}
    (h : Gathered key round chainId (some i) all kind group)
    (hcoll : Collects (Decrypts key parameters i) cs group collected) (hsub : cs ⊆ all) :
    Gathered key round chainId (some i) all kind collected where
  unconfirmed := hcoll.local_eq.trans h.unconfirmed
  prepared := hcoll.pending_eq ▸ h.prepared
  recorded pos share hsh := by
    rcases hcoll.received pos share hsh with hold | ⟨c, hmem, hr⟩
    · exact h.recorded pos share hold
    · exact ⟨i, rfl, c, hsub hmem, hr⟩

/-- Contributions that are received leave the other group alone, and the group they are for has
their shares. -/
theorem Following.receive {i : UInt64}
    (h : Following key round chainId (some i) full reshares store)
    (hsub : cs ⊆ full.contributions kind)
    (hrece : receiveContributions kind i cs store = .ok (count, next)) :
    Following key round chainId (some i) full reshares next ∧
    (∀ other, (next.unfinished other).isSome = (store.unfinished other).isSome) ∧
    (∀ other ≠ kind, next.unfinished other = store.unfinished other) ∧
    ∀ group, next.unfinished kind = some group → Covers key (some i) cs group := by
  cases hg : store.unfinished kind with
  | none =>
    cases cs with
    | nil =>
      cases hrece
      exact ⟨h, fun _ => rfl, fun _ _ => rfl, fun _ _ _ _ _ hmem => nomatch hmem⟩
    | cons c cs =>
      obtain ⟨⟨fresh, mid⟩, hrecv, -⟩ := mapError_bind hrece
      rcases receive_spec kind hrecv with ⟨group, share, hsome, -⟩
      cases hg.symm.trans hsome
  | some group =>
    rcases receiveContributions_spec hg hrece with ⟨collected, rfl, hcoll⟩
    rw [h.key_eq] at hcoll
    have ho : ∀ other ≠ kind,
        (store.withUnfinished kind collected).unfinished other = store.unfinished other :=
      fun other hne => unfinished_withUnfinished_of_ne store hne collected
    have hisSome : ∀ other, ((store.withUnfinished kind collected).unfinished other).isSome
        = (store.unfinished other).isSome := by
      intro other
      by_cases heq : other = kind
      · rw [heq, unfinished_withUnfinished, hg]
        rfl
      · rw [ho other heq]
    refine ⟨⟨?_, ?_, ?_⟩, hisSome, ho, ?_⟩
    · rw [messagePrivateKey_withUnfinished, h.key_eq]
    · intro other found hf
      by_cases heq : other = kind
      · subst heq
        rw [unfinished_withUnfinished, Option.some.injEq] at hf
        subst hf
        exact Gathered.collects (h.gathered other group hg) hcoll hsub
      · rw [ho other heq] at hf
        exact h.gathered other found hf
    · intro hsome
      have hshar := hisSome .sharing
      have hresh := hisSome .resharing
      exact hresh.trans (h.resharing_isSome (hshar.symm.trans hsome))
    · intro found hf other hi c hmem
      cases hi
      rw [unfinished_withUnfinished, Option.some.injEq] at hf
      exact hf ▸ hcoll.covered c hmem

/-- The contributions of a round are all applied: they passed the checks, and the groups of a member
have their shares. -/
structure Applied (key : DkgMessagePrivateKey) (round : UInt64) (pendingIndex : Option UInt64)
    (full : DkgCanonicalRound) (store : DkgKeyStore parameters) : Prop where
  bound : round ≠ UInt64.ofNat (2 ^ 64 - 1)
  round_eq : full.round = round + 1
  valid : validateRoundContributions full parameters = .ok ()
  index : ∀ index, pendingIndex = some index → validateIndex index parameters = .ok ()
  active : pendingIndex.isSome = true → full.reshares = [] ∨ store.resharing.isSome = true
  covers : ∀ kind group, store.unfinished kind = some group →
    Covers key pendingIndex (full.contributions kind) group

omit [Cipher] [PredictableScalars] in
theorem Applied.of_unfinished (h : Applied key round pendingIndex full store)
    (hunfi : ∀ kind, next.unfinished kind = store.unfinished kind) :
    Applied key round pendingIndex full next := by
  have hresh : next.resharing = store.resharing := hunfi .resharing
  exact ⟨h.bound, h.round_eq, h.valid, h.index, hresh ▸ h.active,
    fun kind group hg => h.covers kind group (hunfi kind ▸ hg)⟩

variable {canonical : DkgCanonicalRound}

/-- Applying contributions of the round keeps what follows it, and applying all of them applies the
round. -/
theorem Following.apply (h : Following key round chainId pendingIndex full reshares store)
    (hrd : store.round = round)
    (hsub : ∀ kind, canonical.contributions kind ⊆ full.contributions kind)
    (happly : applyDkgCanonicalRound store pendingIndex canonical = .ok (out, next)) :
    Following key round chainId pendingIndex full reshares next ∧
      (canonical = full → Applied key round pendingIndex full next) := by
  rcases applyDkgCanonicalRound_spec happly with ⟨hchecks, hval, hgroups⟩
  rcases bind_ok hchecks with ⟨_, hb, hn⟩
  rw [require_eq_ok, hrd] at hb hn
  rcases hgroups with ⟨rfl, rfl⟩ | ⟨i, mid, shares, rest, rfl, hi, hshar, hresh,
    hshs, hr⟩
  · refine ⟨h, ?_⟩
    rintro rfl
    exact ⟨hb, hn, hval, nofun, nofun, fun _ _ _ => nofun⟩
  · rcases h.receive (hsub .sharing) hshs with ⟨hmid, hisSome, ho, hcovers⟩
    rcases hmid.receive (hsub .resharing) hr with ⟨hl, hlastS, hlast, hreco⟩
    refine ⟨hl, ?_⟩
    rintro rfl
    refine ⟨hb, hn, hval, ?_, ?_, ?_⟩
    · rintro _ ⟨⟩
      exact hi
    · intro _
      rcases hresh with hempty | hsome
      · exact .inl hempty
      · exact .inr (((hlastS .resharing).trans (hisSome .resharing)).trans hsome)
    · intro kind group hg
      cases kind with
      | sharing =>
        rw [hlast .sharing nofun] at hg
        exact hcovers group hg
      | resharing => exact hreco group hg

variable {entropy : Entropy}
variable (full) in
/-- A round that begins again has empty groups, with the secret of a member pending. -/
theorem following_restartRound {forceReshare : Bool}
    (h : restartRound store chainId pendingIndex forceReshare entropy = .ok next) :
    Keeps store next ∧ next.sharing.isSome = true ∧
      Following store.messagePrivateKey store.round chainId pendingIndex full
        (store.shared.isSome || forceReshare) next := by
  have hresh : ∀ group,
      (store.onSharePeriodStart forceReshare).unfinished .resharing = some group →
      group.localSecret = none ∧ group.pendingSecrets = [] ∧
        group.receivedSecrets = List.replicate parameters.participants none := by
    intro group hg
    rw [unfinished, onSharePeriodStart] at hg
    dsimp only at hg
    split at hg
    · cases hg
      exact ⟨rfl, rfl, rfl⟩
    · rcases Option.map_eq_some_iff.mp hg with ⟨prev, -, rfl⟩
      exact ⟨rfl, rfl, congrArg (List.replicate · none) prev.length_received⟩
  have hisSome : (store.onSharePeriodStart forceReshare).resharing.isSome
      = (store.shared.isSome || forceReshare) := by
    rw [onSharePeriodStart]
    cases store.shared <;> cases forceReshare <;> rfl
  have hgath : ∀ group,
      (store.onSharePeriodStart forceReshare).unfinished .resharing = some group →
      Gathered store.messagePrivateKey store.round chainId pendingIndex
        (full.contributions .resharing) .resharing group := by
    intro group hg
    rcases hresh group hg with ⟨hlocal, hpend, hrecv⟩
    exact ⟨hlocal, hpend, DkgKeyGroup.recorded_replicate hrecv⟩
  unfold restartRound at h
  split at h
  · next hmem =>
      rcases Option.isSome_iff_exists.mp hmem with ⟨i, rfl⟩
      rcases map_eq_ok.mp h with ⟨⟨material, prepared⟩, hprep, rfl⟩
      rw [mapError_eq_ok] at hprep
      rcases prepareShare_spec hprep with
        ⟨group, polynomial, hg, -, hpoly, hmat, rfl⟩
      cases hg
      refine ⟨⟨rfl, rfl, rfl, rfl⟩, rfl, rfl, ?_, fun _ => hisSome⟩
      intro kind found hf
      cases kind with
      | sharing =>
        cases hf
        exact ⟨rfl, ⟨polynomial, entropy, material, hpoly, hmat, rfl⟩,
          DkgKeyGroup.recorded_replicate rfl⟩
      | resharing => exact hgath found hf
  · next hmem =>
      cases h
      rw [Option.not_isSome_iff_eq_none] at hmem
      subst hmem
      refine ⟨⟨rfl, rfl, rfl, rfl⟩, rfl, rfl, ?_, fun _ => hisSome⟩
      intro kind found hf
      cases kind with
      | sharing =>
        cases hf
        exact ⟨rfl, rfl, DkgKeyGroup.recorded_replicate rfl⟩
      | resharing => exact hgath found hf

/-- A round that is rebuilt from contributions of the round follows it. -/
theorem following_rebuildInner {forceReshare : Bool}
    (hsub : ∀ kind, canonical.contributions kind ⊆ full.contributions kind)
    (h : rebuildDkgCanonicalRoundInner store chainId pendingIndex canonical forceReshare entropy
      = .ok (out, next)) :
    Keeps store next ∧
      Following store.messagePrivateKey store.round chainId pendingIndex full
        (store.shared.isSome || forceReshare) next ∧
      (canonical = full →
        Applied store.messagePrivateKey store.round pendingIndex full next) := by
  obtain ⟨_, h⟩ := of_bind h
  obtain ⟨_, h⟩ := of_bind h
  rcases bind_ok h with ⟨mid, hmid, h⟩
  rcases bind_ok h with ⟨⟨r, last⟩, happly, h⟩
  cases h
  rcases following_restartRound full hmid with ⟨hkeeps, -, hfoll⟩
  rcases hfoll.apply hkeeps.round_eq hsub happly with ⟨hn, happ⟩
  exact ⟨hkeeps.trans (keeps_applyDkgCanonicalRound happly), hn, happ⟩

/-! ## Calls for the unfinished round -/

/-- A call without a snapshot leaves the groups that receive shares alone. -/
theorem unfinished_run {call : Call} (hcall : call.snapshot? = none)
    (h : call.run chainId pendingIndex store = .ok next) :
    Keeps store next ∧ ∀ kind, next.unfinished kind = store.unfinished kind := by
  cases call with
  | rebuild canonical entropy => cases hcall
  | apply canonical => cases hcall
  | recoverPeriodStart =>
    cases h
    refine ⟨⟨rfl, rfl, rfl, rfl⟩, fun kind => ?_⟩
    cases kind <;> rfl
  | recovery canonical =>
    rcases map_eq_ok.mp h with ⟨⟨out, last⟩, hl, rfl⟩
    rcases bind_ok hl with ⟨_, -, h⟩
    obtain ⟨_, h⟩ := of_bind h
    obtain ⟨_, h⟩ := of_bind h
    rcases bind_ok h with ⟨⟨count, received⟩, hrecv, h⟩
    cases h
    exact keeps_receiveRecoveries hrecv
  | prepareRecoveredReshare entropy =>
    rcases map_eq_ok.mp h with ⟨⟨material, last⟩, hl, rfl⟩
    rw [mapError_eq_ok] at hl
    rcases bind_ok hl with ⟨recovering, -, h⟩
    obtain ⟨_, h⟩ := of_bind h
    rcases bind_ok h with ⟨poly, -, h⟩
    obtain ⟨_, h⟩ := of_bind h
    cases h
    refine ⟨⟨rfl, rfl, rfl, rfl⟩, fun kind => ?_⟩
    cases kind <;> rfl

theorem keeps_run {call : Call} (h : call.run chainId pendingIndex store = .ok next) :
    Keeps store next := by
  cases hcall : call.snapshot? with
  | none => exact (unfinished_run hcall h).1
  | some canonical =>
    cases call with
    | rebuild snapshot entropy =>
      rcases map_eq_ok.mp h with ⟨⟨out, last⟩, hl, rfl⟩
      exact (following_rebuildInner (fun kind => List.Subset.refl _) hl).1
    | apply snapshot =>
      rcases map_eq_ok.mp h with ⟨⟨out, last⟩, hl, rfl⟩
      exact keeps_applyDkgCanonicalRound hl
    | recoverPeriodStart => cases hcall
    | recovery canonical => cases hcall
    | prepareRecoveredReshare entropy => cases hcall

/-- A call whose snapshot is part of the round keeps what follows it. A call with the whole round
applies it, and a call without a snapshot leaves it applied. -/
theorem following_step {call : Call}
    (h : Following store.messagePrivateKey store.round chainId pendingIndex full
      store.shared.isSome store) (hsub : ∀ canonical, call.snapshot? = some canonical →
      ∀ kind, canonical.contributions kind ⊆ full.contributions kind)
    (hrun : call.run chainId pendingIndex store = .ok next) :
    Following store.messagePrivateKey store.round chainId pendingIndex full
      store.shared.isSome next ∧
    (call.snapshot? = some full →
      Applied store.messagePrivateKey store.round pendingIndex full next) ∧
    (call.snapshot? = none →
      Applied store.messagePrivateKey store.round pendingIndex full store →
      Applied store.messagePrivateKey store.round pendingIndex full next) := by
  cases hcall : call.snapshot? with
  | none =>
    rcases unfinished_run hcall hrun with ⟨hkeeps, hunfi⟩
    exact ⟨h.of_unfinished hkeeps hunfi, nofun,
      fun _ happ => happ.of_unfinished hunfi⟩
  | some canonical =>
    cases call with
    | rebuild snapshot entropy =>
      cases hcall
      rcases map_eq_ok.mp hrun with ⟨⟨out, last⟩, hl, rfl⟩
      rcases following_rebuildInner (hsub canonical rfl) hl with ⟨-, hn, happ⟩
      rw [Bool.or_false] at hn
      exact ⟨hn, fun heq => happ (Option.some.inj heq), nofun⟩
    | apply snapshot =>
      cases hcall
      rcases map_eq_ok.mp hrun with ⟨⟨out, last⟩, hl, rfl⟩
      rcases h.apply rfl (hsub canonical rfl) hl with ⟨hn, happ⟩
      exact ⟨hn, fun heq => happ (Option.some.inj heq), nofun⟩
    | recoverPeriodStart => cases hcall
    | recovery canonical => cases hcall
    | prepareRecoveredReshare entropy => cases hcall

def lastSnapshot? (calls : List Call) : Option DkgCanonicalRound :=
  (calls.filterMap Call.snapshot?).getLast?

omit [Ecies] [Curve] [Cipher] [PredictableScalars] in
theorem lastSnapshot?_cons_of_none {call : Call} (h : call.snapshot? = none) (calls : List Call) :
    lastSnapshot? (call :: calls) = lastSnapshot? calls := by
  rw [lastSnapshot?, List.filterMap_cons, h, lastSnapshot?]

omit [Ecies] [Curve] [Cipher] [PredictableScalars] in
theorem lastSnapshot?_cons_of_some {call : Call} (h : call.snapshot? = some canonical)
    (calls : List Call) :
    lastSnapshot? (call :: calls) = (lastSnapshot? calls).or (some canonical) := by
  rw [lastSnapshot?, List.filterMap_cons, h, lastSnapshot?, List.getLast?_cons]
  cases (calls.filterMap Call.snapshot?).getLast? <;> rfl

/-- After calls whose snapshots are parts of a round, the groups hold shares of the round only; and
the round is applied if its snapshot was the last one, or was applied before and no other came. -/
theorem following_run {calls : List Call}
    (h : Following store.messagePrivateKey store.round chainId pendingIndex full
      store.shared.isSome store)
    (hsub : ∀ call ∈ calls, ∀ canonical, call.snapshot? = some canonical →
      ∀ kind, canonical.contributions kind ⊆ full.contributions kind)
    (hl : lastSnapshot? calls = some full ∨ (lastSnapshot? calls = none ∧
      Applied store.messagePrivateKey store.round pendingIndex full store))
    (hrun : runCalls chainId pendingIndex calls store = .ok next) :
    Keeps store next ∧
      Following store.messagePrivateKey store.round chainId pendingIndex full
        store.shared.isSome next ∧
      Applied store.messagePrivateKey store.round pendingIndex full next := by
  induction calls generalizing store with
  | nil =>
    cases hrun
    rcases hl with hsome | ⟨-, happ⟩
    · cases hsome
    · exact ⟨Keeps.refl _, h, happ⟩
  | cons call calls ih =>
    rcases bind_ok hrun with ⟨mid, hmid, hr⟩
    rcases List.forall_mem_cons.mp hsub with ⟨hcall, hcalls⟩
    rcases following_step h hcall hmid with ⟨hfoll, hwhole, hno⟩
    have hkeeps := keeps_run hmid
    -- The round is applied after the call, unless a later snapshot applies it.
    have hn : lastSnapshot? calls = some full ∨ (lastSnapshot? calls = none ∧
        Applied store.messagePrivateKey store.round pendingIndex full mid) := by
      cases hsnap : call.snapshot? with
      | none =>
        rw [lastSnapshot?_cons_of_none hsnap] at hl
        exact hl.imp_right fun hr => ⟨hr.1, hno hsnap hr.2⟩
      | some canonical =>
        rw [lastSnapshot?_cons_of_some hsnap] at hl
        cases hcase : lastSnapshot? calls with
        | none =>
          rw [hcase, Option.none_or, Option.some.injEq] at hl
          rcases hl with rfl | ⟨hno, -⟩
          · exact .inr ⟨rfl, hwhole hsnap⟩
          · cases hno
        | some later =>
          rw [hcase, Option.some_or] at hl
          exact .inl (hl.resolve_right fun hr => nomatch hr.1)
    rw [← hkeeps.key_eq, ← hkeeps.round_eq, ← hkeeps.shared_eq] at hfoll
    rw [← hkeeps.key_eq, ← hkeeps.round_eq] at hn
    rcases ih hfoll hcalls hn hr with ⟨hlater, hfollo, happ⟩
    rw [hkeeps.key_eq, hkeeps.round_eq] at hfollo happ
    rw [hkeeps.shared_eq] at hfollo
    exact ⟨hkeeps.trans hlater, hfollo, happ⟩

/-! ## Stores between rounds -/

theorem keeps_runCalls {calls : List Call}
    (h : runCalls chainId pendingIndex calls store = .ok next) : Keeps store next := by
  induction calls generalizing store with
  | nil =>
    cases h
    exact Keeps.refl _
  | cons call calls ih =>
    rcases bind_ok h with ⟨mid, hmid, hr⟩
    exact (keeps_run hmid).trans (ih hr)

/-- A store of a validator without an unfinished round. It has a settled group after the first
round. -/
structure Idle (key : DkgMessagePrivateKey) (address : Option Address)
    (store : DkgKeyStore parameters) : Prop where
  key_eq : store.messagePrivateKey = key
  address_eq : store.validatorAddress = address
  unfinished : ∀ kind, store.unfinished kind = none
  shared_isSome : store.shared.isSome = decide (store.round ≠ 0)

variable {address : Option Address}

omit [Cipher] [PredictableScalars] in
/-- An epoch leaves no unfinished round. -/
theorem idle_epoch (hkey : store.messagePrivateKey = key) (haddr : store.validatorAddress = address)
    (hshared : store.shared.isSome = decide (store.round ≠ 0)) {isMemberOfNewGroup : Bool}
    {canonical : DkgCanonicalEpoch} {change : DkgEpochChange}
    (h : applyDkgCanonicalEpoch store isMemberOfNewGroup canonical = .ok (change, next)) :
    Idle key address next := by
  obtain ⟨_, h⟩ := of_bind h
  obtain ⟨_, h⟩ := of_bind h
  rw [mapError_eq_ok] at h
  cases change with
  | reverted =>
    rw [onEpochChange_reverted h]
    refine ⟨hkey, haddr, fun kind => ?_, hshared⟩
    cases kind <;> rfl
  | advanced round =>
    rcases onEpochChange_advanced.mp h with
      ⟨⟨-, -, hb, -⟩, sharing, confirmed, shared, reshared, -, -, -, -, rfl⟩
    refine ⟨hkey, haddr, fun kind => ?_, ?_⟩
    · cases kind <;> rfl
    · symm
      apply decide_eq_true
      intro h0
      have hn := toNat_succ hb
      have hrd : store.round + 1 = 0 := h0
      rw [hrd] at hn
      exact absurd hn (by simp)

theorem idle_follow (h : Idle key address store) {live : LiveRound} {change : DkgEpochChange}
    (hfollow : live.follow chainId store = .ok (change, next)) : Idle key address next := by
  rcases bind_ok hfollow with ⟨mid, hmid, hepoch⟩
  have hkeeps := keeps_runCalls hmid
  apply idle_epoch (hkeeps.key_eq.trans h.key_eq) (hkeeps.address_eq.trans h.address_eq) _ hepoch
  rw [hkeeps.shared_eq, hkeeps.round_eq, h.shared_isSome]

theorem idle_followRounds (h : Idle key address store) {rounds : List LiveRound}
    (hfollow : followRounds chainId rounds store = .ok next) : Idle key address next := by
  induction rounds generalizing store with
  | nil =>
    cases hfollow
    exact h
  | cons live rounds ih =>
    rcases bind_ok hfollow with ⟨⟨change, mid⟩, hmid, hr⟩
    exact ih (idle_follow h hmid) hr

theorem Idle.following (h : Idle key address store) :
    Following key round chainId pendingIndex full reshares store where
  key_eq := h.key_eq
  gathered kind group hg := nomatch (h.unfinished kind).symm.trans hg
  resharing_isSome hsome := by
    have hno : store.sharing = none := h.unfinished .sharing
    rw [hno] at hsome
    cases hsome

/-! ## Replays that succeed -/

variable {randomizer : DkgSecretScalar}

omit [Ecies] [Cipher] [PredictableScalars] in
theorem exists_generatePvss {poly : DkgPolynomial parameters} {o : Entropy}
    {material : DkgPvssMaterial} (h : poly.generatePvss entropy = .ok material)
    (ho : o parameters.threshold = .ok randomizer) :
    ∃ next, poly.generatePvss o = .ok next := by
  obtain ⟨_, h⟩ := of_bind h
  rcases bind_ok h with ⟨shares, hshs, -⟩
  rw [DkgPolynomial.generatePvss, ho, mapError_ok, ok_bind,
    DkgPolynomial.generatePvssWithRandomizer, hshs]
  exact ⟨_, rfl⟩

/-- A round that was begun once can be begun again. -/
theorem exists_restartRound {pending : List (DkgPolynomial parameters)}
    (hprep : Prepared store.messagePrivateKey parameters store.round chainId pendingIndex
      .sharing pending) (hb : store.round ≠ UInt64.ofNat (2 ^ 64 - 1)) (forceReshare : Bool)
    (hentr : entropy parameters.threshold = .ok randomizer) :
    ∃ next, restartRound store chainId pendingIndex forceReshare entropy = .ok next := by
  cases pendingIndex with
  | none => exact ⟨_, rfl⟩
  | some i =>
    rcases hprep with ⟨poly, o, material, hpoly, hmat, -⟩
    rcases exists_generatePvss hmat hentr with ⟨next, hn⟩
    have hsh : (store.onSharePeriodStart forceReshare).prepareShare chainId entropy
        = .ok (next, _) :=
      bind_eq_ok.mpr ⟨(), require_of _ hb,
        bind_eq_ok.mpr ⟨poly, mapError_eq_ok.mpr hpoly,
        bind_eq_ok.mpr ⟨next, mapError_eq_ok.mpr hn,
        bind_eq_ok.mpr ⟨_, rfl, rfl⟩⟩⟩⟩
    have hmem : (some i).isSome = true := rfl
    rw [restartRound, if_pos hmem, hsh]
    exact ⟨_, rfl⟩

/-- The contributions of a round pass the checks, and the validator can decrypt them. -/
structure Applicable (key : DkgMessagePrivateKey) (parameters : DkgParameters) (round : UInt64)
    (pendingIndex : Option UInt64) (full : DkgCanonicalRound) : Prop where
  bound : round ≠ UInt64.ofNat (2 ^ 64 - 1)
  round_eq : full.round = round + 1
  valid : validateRoundContributions full parameters = .ok ()
  index : ∀ index, pendingIndex = some index → validateIndex index parameters = .ok ()
  decrypts : ∀ index, pendingIndex = some index → ∀ kind,
    ∀ contribution ∈ full.contributions kind,
      ∃ share, Decrypts key parameters index contribution share

omit [Cipher] [PredictableScalars] in
/-- Contributions that a store has applied are applicable. -/
theorem Applied.applicable (h : Applied key round pendingIndex full store)
    (hshar : store.sharing.isSome = true) :
    Applicable key parameters round pendingIndex full where
  bound := h.bound
  round_eq := h.round_eq
  valid := h.valid
  index := h.index
  decrypts := by
    rintro index rfl kind c hmem
    have hg : (store.unfinished kind).isSome = true := by
      cases kind with
      | sharing => exact hshar
      | resharing =>
        rcases h.active rfl with hempty | hsome
        · exact nomatch (hempty ▸ hmem : c ∈ [])
        · exact hsome
    rcases Option.isSome_iff_exists.mp hg with ⟨group, hg⟩
    rcases h.covers kind group hg index rfl c hmem with ⟨share, hsh, -⟩
    exact ⟨share, hsh⟩

theorem Applicable.exists_receive {i : UInt64} (h : Applicable key parameters round (some i) full)
    (kind : DkgKeyStore.ReceivingGroup)
    (hstore : Following key round chainId (some i) full reshares store)
    (hunfi : full.contributions kind = [] ∨ (store.unfinished kind).isSome = true) :
    ∃ count next, receiveContributions kind i (full.contributions kind) store
      = .ok (count, next) := by
  rcases hunfi with hempty | hsome
  · rw [hempty]
    exact ⟨_, _, rfl⟩
  · rcases Option.isSome_iff_exists.mp hsome with ⟨group, hg⟩
    rcases contributions_of_valid h.valid kind with ⟨hr, hnd⟩
    have hunique : ∀ pos a b,
        Delivered key parameters (some i) (full.contributions kind) pos a →
        Delivered key parameters (some i) (full.contributions kind) pos b →
        a = b := fun _ _ _ => delivered_unique hnd
    apply exists_receiveContributions hunique _ hstore.key_eq hg
      (hstore.gathered kind group hg).recorded
    intro c hmem
    have hpos := hr c hmem
    rcases h.decrypts i rfl kind c hmem with ⟨share, hsh⟩
    exact ⟨hpos, share, hsh, i, rfl, c, hmem, by omega, hsh⟩

/-- Applicable contributions are applied to every store that follows the round, and its groups stay
there. -/
theorem Applicable.exists_apply (h : Applicable key parameters round pendingIndex full)
    (hstore : Following key round chainId pendingIndex full reshares store)
    (hrd : store.round = round) (hshar : store.sharing.isSome = true)
    (hact : pendingIndex.isSome = true → full.reshares = [] ∨ reshares = true) :
    ∃ out next, applyDkgCanonicalRound store pendingIndex full = .ok (out, next) ∧
      next.sharing.isSome = true := by
  have hchecks : validateStoreRound store full.round = .ok () := by
    rw [validateStoreRound, hrd, require_of _ h.bound, ok_bind]
    exact require_of _ h.round_eq
  unfold applyDkgCanonicalRound
  rw [hchecks, ok_bind, h.valid, ok_bind]
  cases pendingIndex with
  | none => exact ⟨_, _, rfl, hshar⟩
  | some i =>
    have hresh : full.reshares = [] ∨ store.resharing.isSome = true :=
      (hact rfl).imp_right (hstore.resharing_isSome hshar).trans
    rcases h.exists_receive .sharing hstore (.inr hshar) with ⟨shares, mid, hmid⟩
    rcases hstore.receive (List.Subset.refl _) hmid with ⟨hfoll, hisSome, -, -⟩
    rcases h.exists_receive .resharing hfoll
      (hresh.imp_right (hisSome .resharing).trans) with ⟨rest, last, hl⟩
    rcases hfoll.receive (List.Subset.refl _) hl with ⟨-, hlast, -, -⟩
    dsimp only
    rw [h.index i rfl, ok_bind, require_of _ hshar, ok_bind, require_of _ hresh, ok_bind]
    exact ⟨_, _, bind_eq_ok.mpr ⟨_, hmid, bind_eq_ok.mpr ⟨_, hl, rfl⟩⟩,
      (hlast .sharing).trans ((hisSome .sharing).trans hshar)⟩

/-! ## Rebuilt stores -/

/-- Two stores of a validator that applied a round have unfinished groups with the same secrets. -/
theorem Applied.sameSecrets {o : DkgKeyStore parameters}
    (hstore : Following key round chainId pendingIndex full reshares store)
    (ho : Following key round chainId pendingIndex full reshares o)
    (h : Applied key round pendingIndex full store) (hothe : Applied key round pendingIndex full o)
    (kind : DkgKeyStore.ReceivingGroup)
    (hisSome : (store.unfinished kind).isSome = (o.unfinished kind).isSome) :
    Option.Rel SameSecrets (store.unfinished kind) (o.unfinished kind) := by
  have hnd := (contributions_of_valid h.valid kind).2
  cases hg : store.unfinished kind with
  | none =>
    rw [hg, Option.isSome_none, eq_comm, Option.isSome_eq_false_iff,
      Option.isNone_iff_eq_none] at hisSome
    rw [hisSome]
    exact .none
  | some group =>
    rw [hg, Option.isSome_some, eq_comm] at hisSome
    rcases Option.isSome_iff_exists.mp hisSome with ⟨found, hf⟩
    rw [hf]
    exact .some ((hstore.gathered kind group hg).sameSecrets hnd
      (ho.gathered kind found hf) (h.covers kind group hg)
      (hothe.covers kind found hf))

/-- A validator can rebuild a round whose contributions are applicable. -/
theorem exists_rebuildInner (baseline : DkgKeyStore parameters)
    (h : Applicable key parameters round pendingIndex full)
    {pending : List (DkgPolynomial parameters)}
    (hprep : Prepared key parameters round chainId pendingIndex .sharing pending)
    (hkey : baseline.messagePrivateKey = key) (hrd : baseline.round = round) (forceReshare : Bool)
    (hresh : (baseline.shared.isSome || forceReshare) = reshares)
    (hact : pendingIndex.isSome = true → full.reshares = [] ∨ reshares = true)
    (hentr : entropy parameters.threshold = .ok randomizer) :
    ∃ out rebuilt, rebuildDkgCanonicalRoundInner baseline chainId pendingIndex full
        forceReshare entropy = .ok (out, rebuilt) ∧
      Keeps baseline rebuilt ∧
      Following key round chainId pendingIndex full reshares rebuilt ∧
      Applied key round pendingIndex full rebuilt ∧ rebuilt.sharing.isSome = true := by
  subst hkey hrd hresh
  rcases exists_restartRound hprep h.bound forceReshare hentr with ⟨mid, hmid⟩
  rcases following_restartRound full hmid with ⟨hkeeps, hshar, hfoll⟩
  rcases h.exists_apply hfoll hkeeps.round_eq hshar hact with
    ⟨out, rebuilt, hrebu, hrebui⟩
  have hchecks : validateStoreRound baseline full.round = .ok () := by
    rw [validateStoreRound, require_of _ h.bound, ok_bind]
    exact require_of _ h.round_eq
  have hinner : rebuildDkgCanonicalRoundInner baseline chainId pendingIndex full forceReshare
      entropy = .ok ({ out with storeChanged := true }, rebuilt) := by
    refine bind_eq_ok.mpr ⟨(), hchecks, bind_eq_ok.mpr ⟨(), ?_,
      bind_eq_ok.mpr ⟨mid, hmid, bind_eq_ok.mpr ⟨_, hrebu, rfl⟩⟩⟩⟩
    cases pendingIndex with
    | none => rfl
    | some i => exact h.index i rfl
  rcases following_rebuildInner (fun kind => List.Subset.refl _) hinner with
    ⟨hkept, hfollo, happl⟩
  exact ⟨_, rebuilt, hinner, hkept, hfollo, happl rfl, hrebui⟩

/-- For every validator and every history of rounds that it followed live: from any store of the
validator, the contributions and the epoch of the last round rebuild the store it ended with. -/
theorem rebuild_eq_live {address : Option Address} {history : List LiveRound}
    {before live source : DkgKeyStore parameters} {final : LiveRound}
    (hhistory : followRounds chainId history
      { DkgKeyStore.newWithParameters key parameters with validatorAddress := address }
      = .ok before)
    (hfinal : final.follow chainId before = .ok (.advanced round, live))
    (hsnapshots : ∀ call ∈ final.calls, ∀ canonical, call.snapshot? = some canonical →
      canonical.shares ⊆ full.shares ∧ canonical.reshares ⊆ full.reshares)
    (hlast : lastSnapshot? final.calls = some full)
    (hkey : source.messagePrivateKey = key) (haddress : source.validatorAddress = address)
    {entropy : Entropy} {randomizer : DkgSecretScalar}
    (hentropy : entropy parameters.threshold = .ok randomizer) :
    rebuildDkgCanonicalStore source chainId final.pendingIndex full final.epoch entropy
      = .ok live := by
  have hnew : Idle key address
      { DkgKeyStore.newWithParameters key parameters with validatorAddress := address } := by
    refine ⟨rfl, rfl, fun kind => ?_, rfl⟩
    cases kind <;> rfl
  have hbefore := idle_followRounds hnew hhistory
  rcases bind_ok hfinal with ⟨store, hstore, hepoch⟩
  have hsubset : ∀ call ∈ final.calls, ∀ canonical, call.snapshot? = some canonical →
      ∀ kind, canonical.contributions kind ⊆ full.contributions kind := by
    intro call hcall canonical hcanonical kind
    rcases hsnapshots call hcall canonical hcanonical with ⟨hshares, hreshares⟩
    cases kind with
    | sharing => exact hshares
    | resharing => exact hreshares
  rcases following_run (hbefore.key_eq.symm ▸ hbefore.following) hsubset (.inl hlast) hstore with
    ⟨hkeeps, hfollowing, happlied⟩
  rw [hbefore.key_eq] at hfollowing happlied
  -- The epoch of the live store: its round, and what it settles.
  rcases bind_ok hepoch with ⟨_, hchecks, hsettle⟩
  rcases bind_ok hsettle with ⟨_, hself, hchange⟩
  rw [mapError_eq_ok] at hchange
  have hsharing : store.sharing.isSome = true := by
    rcases (DkgKeyStore.onEpochChange_advanced.mp hchange).2 with ⟨sharing, _, _, _, hsome, -⟩
    rw [hsome]
    rfl
  rcases bind_ok hchecks with ⟨_, -, hround⟩
  rw [require_eq_ok, hkeeps.round_eq] at hround
  -- The baseline is at the round before, and a group is forced exactly after the first round.
  have hprior : full.round - 1 = before.round := by
    rw [happlied.round_eq, UInt64.add_sub_cancel]
  have hforce : ((source.detachedReplayBaseline (full.round - 1)).shared.isSome
      || decide (1 < full.round.toNat)) = before.shared.isSome := by
    have hnext := toNat_succ happlied.bound
    have hzero : before.round ≠ 0 ↔ before.round.toNat ≠ 0 :=
      not_congr UInt64.toNat_inj.symm
    rw [hbefore.shared_isSome, happlied.round_eq]
    simp only [DkgKeyStore.detachedReplayBaseline, Option.isSome_none, Bool.false_or,
      decide_eq_decide, hzero, hnext]
    omega
  have hbaseline : (source.detachedReplayBaseline (full.round - 1)).messagePrivateKey = key := hkey
  rcases Option.isSome_iff_exists.mp hsharing with ⟨group, hgroup⟩
  have hactive : final.pendingIndex.isSome = true →
      full.reshares = [] ∨ before.shared.isSome = true :=
    fun hmember => (happlied.active hmember).imp_right
      (hfollowing.resharing_isSome hsharing).symm.trans
  rcases exists_rebuildInner _ (happlied.applicable hsharing)
    (hfollowing.gathered .sharing group hgroup).prepared hbaseline hprior _ hforce hactive hentropy
    with
    ⟨outcome, rebuilt, hinner, hrebuilt, hrebuiltFollowing, hrebuiltApplied, hrebuiltSharing⟩
  have hresettled := onEpochChange_eq
    ((hkeeps.round_eq.trans hprior.symm).trans hrebuilt.round_eq.symm)
    ((hkeeps.address_eq.trans (hbefore.address_eq.trans haddress.symm)).trans
      hrebuilt.address_eq.symm)
    (hfollowing.key_eq.trans hrebuiltFollowing.key_eq.symm)
    (happlied.sameSecrets hfollowing hrebuiltFollowing hrebuiltApplied .sharing
      (hsharing.trans hrebuiltSharing.symm))
    (happlied.sameSecrets hfollowing hrebuiltFollowing hrebuiltApplied .resharing
      ((hfollowing.resharing_isSome hsharing).trans
        (hrebuiltFollowing.resharing_isSome hrebuiltSharing).symm)) hchange
  have hrebuiltEpoch : applyDkgCanonicalEpoch rebuilt final.pendingIndex.isSome final.epoch
      = .ok (.advanced round, live) := by
    have hrechecks : validateStoreRound rebuilt final.epoch.round = .ok () := by
      have hsame : rebuilt.round = before.round := hrebuilt.round_eq.trans hprior
      rw [validateStoreRound, hsame, require_of _ happlied.bound, ok_bind]
      exact require_of _ hround
    exact bind_eq_ok.mpr ⟨(), hrechecks, bind_eq_ok.mpr ⟨(), hself,
      mapError_eq_ok.mpr hresettled⟩⟩
  have hpositive : full.round ≠ 0 := by
    intro hzero
    have hnext := toNat_succ happlied.bound
    rw [← happlied.round_eq, hzero] at hnext
    exact absurd hnext (by simp)
  exact bind_eq_ok.mpr ⟨(), require_of _ hpositive, bind_eq_ok.mpr ⟨(),
    require_of _ (hround.trans happlied.round_eq.symm), bind_eq_ok.mpr ⟨_, hinner,
    bind_eq_ok.mpr ⟨_, hrebuiltEpoch, rfl⟩⟩⟩⟩

end Follow

end Rebuild

/-! ## A committee of one member -/

section SoloCommittee

open ScalarCurve PlainMessages

def soloCommittee : DkgParameters := ⟨1, 1, 1⟩

def soloKey : DkgMessagePrivateKey := ⟨.ofNat 32 1, rfl⟩

/-- The scalar one for every random scalar. -/
def soloEntropy : Entropy := fun _ => .ok ⟨1, one_ne_zero⟩

theorem runCalls_rebuild {store next : DkgKeyStore soloCommittee} {chainId : U256}
    {entropy : Entropy}
    (h : rebuildDkgCanonicalRoundInner store chainId pendingIndex canonical false entropy
      = .ok (out, next)) :
    runCalls chainId pendingIndex [.rebuild canonical entropy] store = .ok next := by
  rw [runCalls, List.foldlM_cons, Call.run, rebuildDkgCanonicalRound, h]
  rfl

/-- The member announces its polynomial, and it accepts its own share of it. -/
theorem exists_soloContribution :
    ∃ (pending : List (DkgPolynomial soloCommittee)) (enc : Bytes)
      (pvss : DkgPvss soloCommittee) (share : DkgSecretScalar),
      Prepared soloKey soloCommittee 0 1 (some 1) .sharing pending ∧
      DkgPvss.decodeWithParameters enc soloCommittee = .ok pvss ∧
      Decrypts soloKey soloCommittee 1 ⟨1, 1, enc, [shareMessage share]⟩ share := by
  have hkey : soloKey.bytes ≠ .zero 32 := by decide +kernel
  have hchain : (1 : U256) ≠ 0 := by decide
  have hpoly : ∃ polynomial, DkgPolynomial.deterministicWithParameters soloKey.bytes 1
      (0 + 1) soloCommittee = .ok polynomial :=
    ⟨_, bind_eq_ok.mpr ⟨(), require_of _ hkey,
      bind_eq_ok.mpr ⟨(), require_of _ hchain, rfl⟩⟩⟩
  rcases hpoly with ⟨polynomial, hpoly⟩
  rcases List.length_eq_one_iff.mp polynomial.length_eq with ⟨share, hsh⟩
  have heval : polynomial.evaluate 1 = .ok share := by
    have hi : 1 ≤ (1 : UInt64).toNat ∧ (1 : UInt64).toNat ≤ soloCommittee.participants := by
      decide
    rw [DkgPolynomial.evaluate, require_of _ hi, ok_bind, hsh]
    apply trySecretFromFr_eq_ok.mpr
    simp [Horner.evaluate]
  have hmat : ∃ material,
      polynomial.generatePvssWithRandomizer ⟨1, one_ne_zero⟩ = .ok material :=
    ⟨_, bind_eq_ok.mpr
      ⟨[share], mapM_eq_ok_of_forall₂ (.cons heval .nil), rfl⟩⟩
  rcases hmat with ⟨material, hmat⟩
  rcases DkgPolynomial.decode_generatePvss (by decide) hmat with ⟨pvss, hpvss, hcom⟩
  have hver := DkgPolynomial.verifyShare_evaluate hpvss hcom heval
  refine ⟨[polynomial], _, pvss, share, ⟨polynomial, soloEntropy, _, hpoly, hmat, rfl⟩,
    hpvss, ?_⟩
  refine bind_eq_ok.mpr ⟨(), rfl, bind_eq_ok.mpr ⟨(), rfl, bind_eq_ok.mpr
    ⟨pvss, mapError_eq_ok.mpr hpvss, bind_eq_ok.mpr ⟨share, ?_,
    bind_eq_ok.mpr ⟨(), mapError_eq_ok.mpr hver, rfl⟩⟩⟩⟩⟩
  exact mapError_eq_ok.mpr (decrypt_shareMessage _ share)

/-- The member follows the first round: it prepares, reads its own contribution and settles. What
it is rebuilt from afterwards is the store it has. -/
theorem rebuild_eq_live_solo :
    ∃ (full : DkgCanonicalRound) (epoch : DkgCanonicalEpoch) (live : DkgKeyStore soloCommittee),
      LiveRound.follow ⟨some 1, [.rebuild full soloEntropy], epoch⟩ 1
        (DkgKeyStore.newWithParameters soloKey soloCommittee) = .ok (.advanced 1, live) ∧
      rebuildDkgCanonicalStore live 1 (some 1) full epoch soloEntropy = .ok live := by
  rcases exists_soloContribution with
    ⟨pending, encoded, pvss, share, hprepared, hpvss, hdecrypts⟩
  let full : DkgCanonicalRound := ⟨1, [⟨1, 1, encoded, [shareMessage share]⟩], []⟩
  let epoch : DkgCanonicalEpoch := ⟨1, some encoded, some (contractCommitment generator1), none⟩
  let new := DkgKeyStore.newWithParameters soloKey soloCommittee
  have happlicable : Applicable soloKey soloCommittee 0 (some 1) full := by
    refine ⟨by decide, rfl, rfl, fun index hindex => ?_, fun index hindex kind => ?_⟩
    · cases hindex
      rfl
    · cases hindex
      cases kind with
      | sharing => exact List.forall_mem_singleton.mpr ⟨share, hdecrypts⟩
      | resharing => exact fun contribution hmem => nomatch hmem
  rcases exists_rebuildInner new happlicable hprepared rfl rfl false rfl (fun _ => .inl rfl)
    (rfl : soloEntropy 1 = .ok ⟨1, one_ne_zero⟩) with
    ⟨outcome, store, hstore, hkeeps, hfollowing, happlied, hsharing⟩
  rcases Option.isSome_iff_exists.mp hsharing with ⟨group, hgroup⟩
  -- The group of the next key has the share of the one contribution.
  rcases happlied.covers .sharing group hgroup 1 rfl _ (List.mem_singleton.mpr rfl) with
    ⟨received, -, hreceived⟩
  have hsecrets : group.receivedSecrets = [received].map some := by
    rcases List.length_eq_one_iff.mp group.length_received with ⟨secret, hsecret⟩
    rw [hsecret] at hreceived ⊢
    exact congrArg (fun entry => [entry]) (Option.some_inj.mp hreceived)
  have hsettled : ∃ live, store.onEpochChange encoded (contractCommitment generator1).bytes [] true
      = .ok (.advanced 1, live) := by
    have hencoded : encoded.isEmpty ≠ true := by
      intro hempty
      rw [List.isEmpty_iff] at hempty
      subst hempty
      obtain ⟨hlength, -⟩ := require_bind hpvss
      exact absurd hlength (by decide)
    rcases DkgKeyStore.exists_confirmSelf group hpvss with ⟨confirmed, hconfirmed⟩
    have hsum : ([received].map DkgSecretScalar.value).sum ≠ 0 := by
      simpa using received.ne_zero
    rcases DkgKeyGroup.exists_settle
      ((DkgKeyGroup.confirmSelf_spec hconfirmed).1.trans hsecrets) hsum generator1_ne_zero
      (by decide : soloCommittee.scaler ≠ 0) with ⟨settled, hsettled⟩
    have hresharing : store.resharing = none :=
      Option.not_isSome_iff_eq_none.mp
        (Bool.eq_false_iff.mp (hfollowing.resharing_isSome hsharing))
    exact ⟨_, DkgKeyStore.onEpochChange_advanced.mpr ⟨⟨rfl, hencoded,
      by rw [hkeeps.round_eq]; decide,
      by rw [hkeeps.round_eq]; rfl⟩, group, confirmed, settled, none, hgroup, hconfirmed, hsettled,
      by rw [hresharing]; rfl, rfl⟩⟩
  rcases hsettled with ⟨live, hlive⟩
  have hfollow : LiveRound.follow ⟨some 1, [.rebuild full soloEntropy], epoch⟩ 1 new
      = .ok (.advanced 1, live) := by
    have hcalls : runCalls 1 (some 1) [.rebuild full soloEntropy] new = .ok store :=
      runCalls_rebuild hstore
    have hchecks : validateStoreRound store epoch.round = .ok () := by
      rw [validateStoreRound, hkeeps.round_eq]
      rfl
    exact bind_eq_ok.mpr ⟨store, hcalls, bind_eq_ok.mpr ⟨(), hchecks,
      bind_eq_ok.mpr ⟨(), rfl, mapError_eq_ok.mpr hlive⟩⟩⟩
  refine ⟨full, epoch, live, hfollow, ?_⟩
  have hhistory : followRounds 1 []
      { DkgKeyStore.newWithParameters soloKey soloCommittee with validatorAddress := none }
      = .ok new := rfl
  have hentropy : soloEntropy soloCommittee.threshold = .ok ⟨1, one_ne_zero⟩ := rfl
  have hkey : live.messagePrivateKey = soloKey ∧ live.validatorAddress = none := by
    rcases (DkgKeyStore.onEpochChange_advanced.mp hlive).2 with ⟨_, _, _, _, -, -, -, -, rfl⟩
    exact ⟨hkeeps.key_eq, hkeeps.address_eq⟩
  refine rebuild_eq_live hhistory hfollow ?_ rfl hkey.1 hkey.2 hentropy
  intro call hcall canonical hcanonical
  cases List.mem_singleton.mp hcall
  cases hcanonical
  exact ⟨List.Subset.refl _, List.Subset.refl _⟩

end SoloCommittee

end DkgReplay
end NeoX
