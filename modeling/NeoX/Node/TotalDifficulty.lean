import NeoX.Library.Fallible
import NeoX.Node.Symbolic

/-!
# Total difficulty of the canonical chain

The total difficulty of a block is the sum of the difficulties of its ancestors and itself. The node
takes it from a checkpoint: it walks from the checkpoint back to a canonical block, which may lie on
another branch, and from there forward along the canonical chain. Where the branch is not known any
more, it adds all difficulties from genesis on.

Main results:

- `CanonicalChain.total_eq_of_branchTotal`: a canonical block has the total difficulty
  of the canonical chain on every branch.
- `canonicalTotalDifficulty_exact`: a result is the sum of the canonical difficulties,
  and there is a result when the provider answers.
-/

namespace NeoX

open Except hiding ok error

/-- The part of the local status that a checkpoint needs. -/
structure BeaconLocalStatus where
  totalDifficulty : U256
  head : B256
  headNumber : Nat

/-- The headers that a node can read: the canonical hash of a number, a header of any branch, and
the canonical headers of a range with both ends. -/
structure HeaderReader where
  blockHash : Nat → Except String (Option B256)
  header : B256 → Except String (Option Header)
  headersRange : Nat → Nat → Except String (List Header)

def canonicalHeaderBatchSize : Nat := 4096

/-! ## Computation -/

def addHeaders : Nat → U256 → List Header → Except String U256
  | _, totalDifficulty, [] => .ok totalDifficulty
  | expected, totalDifficulty, header :: headers => do
      let number := header.number.toNat
      require (number = expected)
        s!"out-of-order canonical header: expected {expected}, got {number}"
      require (totalDifficulty.toNat + header.difficulty.toNat < 2 ^ 256)
        s!"total difficulty overflow at block {number}"
      addHeaders (expected + 1) (totalDifficulty + header.difficulty) headers

def addBatch (reader : HeaderReader) (totalDifficulty : U256) (cursor batchEnd : Nat) :
    Except String U256 := do
  let headers ← reader.headersRange cursor batchEnd
  let expected := batchEnd - cursor + 1
  let found := headers.length
  require (found = expected)
    s!"missing canonical headers in range {cursor}..={batchEnd}: expected {expected}, got {found}"
  addHeaders cursor totalDifficulty headers

/-- Add the difficulties of the canonical blocks of a range, in batches. -/
def addBatches (reader : HeaderReader) (totalDifficulty : U256) (cursor last : Nat) :
    Except String U256 := do
  let batchEnd := min (cursor + (canonicalHeaderBatchSize - 1)) last
  let totalDifficulty ← addBatch reader totalDifficulty cursor batchEnd
  if _hmore : batchEnd < last then
    addBatches reader totalDifficulty (batchEnd + 1) last
  else
    .ok totalDifficulty
termination_by last - cursor
decreasing_by
  omega

/-- Add the difficulties of the canonical blocks of a range, which may be empty. -/
def addCanonicalDifficulty (reader : HeaderReader) (totalDifficulty : U256) (start last : Nat) :
    Except String U256 :=
  if start > last then .ok totalDifficulty else addBatches reader totalDifficulty start last

/-- Whether a block up to the target is canonical. -/
def isCanonical (reader : HeaderReader) (target number : Nat) (hash : B256) :
    Except String Bool :=
  if number ≤ target then do
    let found ← reader.blockHash number
    .ok (found = some hash)
  else
    .ok false

/-- From a canonical block forward to the target. -/
def addForward (reader : HeaderReader) (totalDifficulty : U256) (number target : Nat) :
    Except String U256 :=
  if number = target then .ok totalDifficulty
  else addCanonicalDifficulty reader totalDifficulty (number + 1) target

/-- Walk the branch of a block back to a canonical one, and start at genesis when the branch is not
known or does not fit. -/
def walkBack (reader : HeaderReader) (target : Nat) : Nat → B256 → U256 → Except String U256
  | number, hash, totalDifficulty => do
      let canonical ← isCanonical reader target number hash
      if canonical then
        addForward reader totalDifficulty number target
      else
        let found ← reader.header hash
        match found with
        | none => addCanonicalDifficulty reader 0 0 target
        | some header =>
          if header.number.toNat ≠ number ∨ totalDifficulty < header.difficulty then
            addCanonicalDifficulty reader 0 0 target
          else
            match number with
            | 0 => addCanonicalDifficulty reader 0 0 target
            | number + 1 =>
              walkBack reader target number header.parentHash
                (totalDifficulty - header.difficulty)

def canonicalTotalDifficulty (reader : HeaderReader) (seed : BeaconLocalStatus) (target : Nat) :
    Except String U256 := do
  let canonical ← isCanonical reader target seed.headNumber seed.head
  if canonical then
    addForward reader seed.totalDifficulty seed.headNumber target
  else
    walkBack reader target seed.headNumber seed.head seed.totalDifficulty

/-! ## Chains -/

/-- A tree of headers by hash, with its canonical chain. -/
structure CanonicalChain where
  tree : B256 → Option Header
  hash : Nat → B256
  header : Nat → Header
  head : Nat
  in_tree : ∀ number ≤ head, tree (hash number) = some (header number)
  number_eq : ∀ number ≤ head, (header number).number.toNat = number
  parent_eq : ∀ number < head, (header (number + 1)).parentHash = hash number

/-- The total difficulty of a block of a tree on its own branch. -/
inductive BranchTotal (tree : B256 → Option Header) : B256 → Nat → Nat → Prop where
  | genesis {hash : B256} {header : Header} (hheader : tree hash = some header)
      (hnumber : header.number.toNat = 0) : BranchTotal tree hash 0 header.difficulty.toNat
  | child {hash : B256} {header : Header} {number total : Nat} (hheader : tree hash = some header)
      (hnumber : header.number.toNat = number + 1)
      (hparent : BranchTotal tree header.parentHash number total) :
      BranchTotal tree hash (number + 1) (total + header.difficulty.toNat)

variable {number : Nat}

namespace CanonicalChain

/-- The sum of the difficulties below a number. -/
def below (chain : CanonicalChain) (number : Nat) : Nat :=
  ∑ index ∈ Finset.range number, (chain.header index).difficulty.toNat

/-- The total difficulty of a canonical block. -/
def total (chain : CanonicalChain) (number : Nat) : Nat := chain.below (number + 1)

@[simp] theorem below_zero (chain : CanonicalChain) : chain.below 0 = 0 := rfl

theorem below_succ (chain : CanonicalChain) (number : Nat) :
    chain.below (number + 1) = chain.below number + (chain.header number).difficulty.toNat :=
  Finset.sum_range_succ _ _

theorem below_mono (chain : CanonicalChain) {a b : Nat} (h : a ≤ b) :
    chain.below a ≤ chain.below b :=
  Finset.sum_le_sum_of_subset (Finset.range_subset_range.mpr h)

/-- On whatever branch it was computed, the total difficulty of a canonical block is that of the
canonical chain. -/
theorem total_eq_of_branchTotal (chain : CanonicalChain) {total : Nat}
    (hnumber : number ≤ chain.head) (h : BranchTotal chain.tree (chain.hash number) number total) :
    total = chain.total number := by
  induction number generalizing total with
  | zero =>
    cases h with
    | genesis hheader h0 =>
      obtain rfl := Option.some.inj (hheader.symm.trans (chain.in_tree 0 hnumber))
      rw [CanonicalChain.total, below_succ, below_zero, Nat.zero_add]
  | succ number ih =>
    cases h with
    | child hheader hsucc hparent =>
      obtain rfl := Option.some.inj (hheader.symm.trans (chain.in_tree _ hnumber))
      rw [chain.parent_eq number hnumber] at hparent
      rw [ih (Nat.le_of_succ_le hnumber) hparent, CanonicalChain.total, CanonicalChain.total,
        chain.below_succ (number + 1)]

end CanonicalChain

/-- What a reader answers is what the tree and its canonical chain have. It may not know a header or
a hash, return fewer headers than it was asked for, or fail. -/
structure Views (reader : HeaderReader) (chain : CanonicalChain) : Prop where
  blockHash : ∀ number hash, reader.blockHash number = .ok (some hash) →
    number ≤ chain.head ∧ hash = chain.hash number
  header : ∀ hash header, reader.header hash = .ok (some header) → chain.tree hash = some header
  headersRange : ∀ first last headers, reader.headersRange first last = .ok headers →
    ∀ header ∈ headers, header = chain.header header.number.toNat

/-- A reader that does not fail and has the canonical headers up to the head. -/
structure Answers (reader : HeaderReader) (chain : CanonicalChain) : Prop where
  blockHash : ∀ number, ∃ answer, reader.blockHash number = .ok answer
  header : ∀ hash, ∃ answer, reader.header hash = .ok answer
  headersRange : ∀ first last, first ≤ last → last ≤ chain.head →
    reader.headersRange first last
      = .ok ((List.range' first (last - first + 1)).map chain.header)

/-! ## Adding forward -/

variable {target : Nat}

section Forward

variable {reader : HeaderReader} {chain : CanonicalChain}
  {number : Nat} {totalDifficulty result : U256}

theorem addHeaders_exact {headers : List Header}
    (hcan : ∀ header ∈ headers, header = chain.header header.number.toNat)
    (htot : totalDifficulty.toNat = chain.below number)
    (h : addHeaders number totalDifficulty headers = .ok result) :
    result.toNat = chain.below (number + headers.length) := by
  induction headers generalizing number totalDifficulty with
  | nil =>
    cases h
    exact htot
  | cons header headers ih =>
    obtain ⟨hnumber, h⟩ := require_bind h
    obtain ⟨hfits, h⟩ := require_bind h
    have hheader := hcan header List.mem_cons_self
    rw [hnumber] at hheader
    have hn := ih (fun o ho => hcan o (List.mem_cons_of_mem _ ho))
      (by rw [BitVec.toNat_add, Nat.mod_eq_of_lt hfits, htot, chain.below_succ, ← hheader]) h
    rw [hn, List.length_cons, Nat.add_assoc, Nat.add_comm 1]

theorem addHeaders_answers {count : Nat} (hhead : number + count ≤ chain.head + 1)
    (htot : totalDifficulty.toNat = chain.below number)
    (hfits : chain.below (number + count) < 2 ^ 256) :
    ∃ result, addHeaders number totalDifficulty ((List.range' number count).map chain.header)
      = .ok result := by
  induction count generalizing number totalDifficulty with
  | zero => exact ⟨totalDifficulty, rfl⟩
  | succ count ih =>
    have hnumber := chain.number_eq number (by omega)
    have hstep : chain.below (number + 1) < 2 ^ 256 :=
      lt_of_le_of_lt (chain.below_mono (by omega)) hfits
    rw [chain.below_succ, ← htot] at hstep
    rw [List.range'_succ, List.map_cons, addHeaders, require_of _ hnumber, ok_bind,
      require_of _ hstep, ok_bind]
    refine ih (by omega) ?_ (by rwa [Nat.add_right_comm])
    rw [BitVec.toNat_add, Nat.mod_eq_of_lt hstep, htot, chain.below_succ]

variable {cursor : Nat}

theorem addBatch_exact (hviews : Views reader chain) {batchEnd : Nat} (hr : cursor ≤ batchEnd)
    (htot : totalDifficulty.toNat = chain.below cursor)
    (h : addBatch reader totalDifficulty cursor batchEnd = .ok result) :
    result.toNat = chain.below (batchEnd + 1) := by
  obtain ⟨headers, hhead, h⟩ := bind_ok h
  obtain ⟨hlen, h⟩ := require_bind h
  rw [addHeaders_exact (hviews.headersRange cursor batchEnd headers hhead) htot h, hlen]
  congr 1
  omega

theorem addBatch_answers (hansw : Answers reader chain) (batchEnd : Nat) (hr : cursor ≤ batchEnd)
    (hhead : batchEnd ≤ chain.head) (htot : totalDifficulty.toNat = chain.below cursor)
    (hfits : chain.below (batchEnd + 1) < 2 ^ 256) :
    ∃ result, addBatch reader totalDifficulty cursor batchEnd = .ok result := by
  have hend : cursor + (batchEnd - cursor + 1) = batchEnd + 1 := by omega
  unfold addBatch
  rw [hansw.headersRange cursor batchEnd hr hhead, ok_bind]
  dsimp only
  rw [require_of _ (by simp), ok_bind]
  exact addHeaders_answers (by omega) htot (by rwa [hend])

/-- The batches add all difficulties of a range. -/
theorem addBatches_exact (hviews : Views reader chain) {last : Nat} (hr : cursor ≤ last)
    (htot : totalDifficulty.toNat = chain.below cursor)
    (h : addBatches reader totalDifficulty cursor last = .ok result) :
    result.toNat = chain.below (last + 1) := by
  -- The blocks that are left get fewer with every batch.
  induction hleft : last - cursor using Nat.strong_induction_on
    generalizing cursor totalDifficulty with
  | _ left ih =>
    rw [addBatches] at h
    obtain ⟨next, hbatch, h⟩ := bind_ok h
    have hn := addBatch_exact hviews (by omega) htot hbatch
    split at h
    · next hmore =>
        exact ih (last - (min (cursor + (canonicalHeaderBatchSize - 1)) last + 1)) (by omega)
          (by omega) hn h rfl
    · next hdone =>
        cases h
        rw [hn]
        congr 2
        omega

theorem addBatches_answers (hviews : Views reader chain) (hansw : Answers reader chain) {last : Nat}
    (hr : cursor ≤ last) (hhead : last ≤ chain.head)
    (htot : totalDifficulty.toNat = chain.below cursor) (hfits : chain.below (last + 1) < 2 ^ 256) :
    ∃ result, addBatches reader totalDifficulty cursor last = .ok result := by
  induction hleft : last - cursor using Nat.strong_induction_on
    generalizing cursor totalDifficulty with
  | _ left ih =>
    obtain ⟨next, hbatch⟩ := addBatch_answers hansw
      (min (cursor + (canonicalHeaderBatchSize - 1)) last) (by omega) (by omega) htot
      (lt_of_le_of_lt (chain.below_mono (by omega)) hfits)
    rw [addBatches, hbatch, ok_bind]
    split
    · exact ih _ (by omega) (by omega) (addBatch_exact hviews (by omega) htot hbatch) rfl
    · exact ⟨next, rfl⟩

theorem addCanonicalDifficulty_exact (hviews : Views reader chain) {start last : Nat}
    (hr : start ≤ last + 1) (htot : totalDifficulty.toNat = chain.below start)
    (h : addCanonicalDifficulty reader totalDifficulty start last = .ok result) :
    result.toNat = chain.below (last + 1) := by
  unfold addCanonicalDifficulty at h
  split at h
  · next hempty =>
      cases h
      rw [htot]
      congr 1
      omega
  · next hst => exact addBatches_exact hviews (not_lt.mp hst) htot h

theorem addCanonicalDifficulty_answers (hviews : Views reader chain) (hansw : Answers reader chain)
    {start last : Nat} (hhead : last ≤ chain.head)
    (htot : totalDifficulty.toNat = chain.below start) (hfits : chain.below (last + 1) < 2 ^ 256) :
    ∃ result, addCanonicalDifficulty reader totalDifficulty start last = .ok result := by
  unfold addCanonicalDifficulty
  split
  · exact ⟨totalDifficulty, rfl⟩
  · next hst =>
      exact addBatches_answers hviews hansw (not_lt.mp hst) hhead htot hfits

/-- A block that is found canonical has the total difficulty of the canonical chain. -/
theorem of_isCanonical (hviews : Views reader chain) {hash : B256}
    (h : isCanonical reader target number hash = .ok true) {total : Nat}
    (htot : BranchTotal chain.tree hash number total) :
    number ≤ target ∧ total = chain.below (number + 1) := by
  unfold isCanonical at h
  split at h
  · next hle =>
      obtain ⟨found, hf, h⟩ := bind_ok h
      have hhash : found = some hash := of_decide_eq_true (Except.ok.inj h)
      rw [hhash] at hf
      obtain ⟨hhead, rfl⟩ := hviews.blockHash number hash hf
      exact ⟨hle, chain.total_eq_of_branchTotal hhead htot⟩
  · cases h

theorem isCanonical_answers (hansw : Answers reader chain) (target number : Nat)
    (hash : B256) : ∃ canonical, isCanonical reader target number hash = .ok canonical := by
  unfold isCanonical
  split
  · obtain ⟨answer, hanswer⟩ := hansw.blockHash number
    rw [hanswer]
    exact ⟨_, rfl⟩
  · exact ⟨false, rfl⟩

theorem addForward_exact (hviews : Views reader chain) (hle : number ≤ target)
    (htot : totalDifficulty.toNat = chain.below (number + 1))
    (h : addForward reader totalDifficulty number target = .ok result) :
    result.toNat = chain.below (target + 1) := by
  unfold addForward at h
  split at h
  · next heq =>
      cases h
      rw [htot, heq]
  · exact addCanonicalDifficulty_exact hviews (by omega) htot h

theorem addForward_answers (hviews : Views reader chain) (hansw : Answers reader chain)
    (hhead : target ≤ chain.head) (htot : totalDifficulty.toNat = chain.below (number + 1))
    (hfits : chain.below (target + 1) < 2 ^ 256) :
    ∃ result, addForward reader totalDifficulty number target = .ok result := by
  unfold addForward
  split
  · exact ⟨totalDifficulty, rfl⟩
  · exact addCanonicalDifficulty_answers hviews hansw hhead htot hfits

end Forward

/-! ## Walking back -/

section Walk

variable {reader : HeaderReader} {chain : CanonicalChain} {totalDifficulty : U256}

theorem BranchTotal.parent {tree : B256 → Option Header} {hash : B256} {header : Header}
    (h : BranchTotal tree hash (number + 1) totalDifficulty.toNat)
    (hheader : tree hash = some header) :
    BranchTotal tree header.parentHash number (totalDifficulty - header.difficulty).toNat := by
  generalize htot : totalDifficulty.toNat = total at h
  cases h with
  | child hf _ hparent =>
    obtain rfl := Option.some.inj (hheader.symm.trans hf)
    rwa [BitVec.toNat_sub_of_le (by rw [BitVec.le_def, htot]; exact Nat.le_add_left _ _),
      htot, Nat.add_sub_cancel]

theorem walkBack_exact (hviews : Views reader chain) {hash : B256} {result : U256}
    (htot : BranchTotal chain.tree hash number totalDifficulty.toNat)
    (h : walkBack reader target number hash totalDifficulty = .ok result) :
    result.toNat = chain.total target := by
  have hgene {result : U256} (h : addCanonicalDifficulty reader 0 0 target = .ok result) :
      result.toNat = chain.total target :=
    addCanonicalDifficulty_exact hviews (Nat.zero_le _) rfl h
  induction number using Nat.strong_induction_on generalizing hash totalDifficulty with
  | _ number ih =>
    rw [walkBack] at h
    obtain ⟨canonical, hcan, h⟩ := bind_ok h
    split at h
    · next heq =>
        obtain ⟨hle, hbelow⟩ := of_isCanonical hviews (heq ▸ hcan) htot
        exact addForward_exact hviews hle hbelow h
    · obtain ⟨found, hf, h⟩ := bind_ok h
      split at h
      · exact hgene h
      · split at h
        · exact hgene h
        · split at h
          · exact hgene h
          · exact ih _ (Nat.lt_succ_self _) (htot.parent (hviews.header _ _ hf)) h

theorem walkBack_answers (hviews : Views reader chain) (hansw : Answers reader chain)
    (hhead : target ≤ chain.head) (hfits : chain.total target < 2 ^ 256) {hash : B256}
    (htot : BranchTotal chain.tree hash number totalDifficulty.toNat) :
    ∃ result, walkBack reader target number hash totalDifficulty = .ok result := by
  have hgene : ∃ result, addCanonicalDifficulty reader 0 0 target = .ok result :=
    addCanonicalDifficulty_answers hviews hansw hhead rfl hfits
  induction number using Nat.strong_induction_on generalizing hash totalDifficulty with
  | _ number ih =>
    obtain ⟨canonical, hcan⟩ := isCanonical_answers hansw target number hash
    obtain ⟨found, hf⟩ := hansw.header hash
    rw [walkBack, hcan, ok_bind]
    split
    · next heq =>
        obtain ⟨-, hbelow⟩ := of_isCanonical hviews (heq ▸ hcan) htot
        exact addForward_answers hviews hansw hhead hbelow hfits
    · rw [hf, ok_bind]
      split
      · exact hgene
      · split
        · exact hgene
        · split
          · exact hgene
          · exact ih _ (Nat.lt_succ_self _) (htot.parent (hviews.header _ _ hf))

/-- From a checkpoint whose total difficulty is right on its own branch, canonical or abandoned at
any depth, a result is the sum of the difficulties of the canonical blocks up to the target. There
is a result when the reader answers and the sum is a 256-bit integer. -/
theorem canonicalTotalDifficulty_exact (hviews : Views reader chain) {seed : BeaconLocalStatus}
    (hseed : BranchTotal chain.tree seed.head seed.headNumber seed.totalDifficulty.toNat)
    (target : Nat) :
    (∀ result, canonicalTotalDifficulty reader seed target = .ok result →
      result.toNat = chain.total target) ∧
    (Answers reader chain → target ≤ chain.head → chain.total target < 2 ^ 256 →
      ∃ result, canonicalTotalDifficulty reader seed target = .ok result) := by
  constructor
  · intro result h
    obtain ⟨canonical, hcanonical, h⟩ := bind_ok h
    split at h
    · next heq =>
        obtain ⟨hle, hbelow⟩ := of_isCanonical hviews (heq ▸ hcanonical) hseed
        exact addForward_exact hviews hle hbelow h
    · exact walkBack_exact hviews hseed h
  · intro hanswers hhead hfits
    obtain ⟨canonical, hcanonical⟩ :=
      isCanonical_answers hanswers target seed.headNumber seed.head
    rw [canonicalTotalDifficulty, hcanonical, ok_bind]
    split
    · next heq =>
        obtain ⟨-, hbelow⟩ := of_isCanonical hviews (heq ▸ hcanonical) hseed
        exact addForward_answers hviews hanswers hhead hbelow hfits
    · exact walkBack_answers hviews hanswers hhead hfits hseed

end Walk

/-! ### A fork above genesis -/

namespace Fork

def block (parentHash : B256) (number : UInt64) (difficulty : U256) : Header :=
  { Symbolic.header number [] difficulty with parentHash := parentHash }

/-- The hash of the canonical block with a number. -/
def hash (number : Nat) : B256 := .ofNat 32 number

def canonical (number : Nat) : Header := block (hash (number - 1)) (.ofNat number) 2

def abandonedHash : B256 := .ofNat 32 7

/-- The abandoned block, a child of genesis. -/
def abandoned : Header := block (hash 0) 1 1

def tree (blockHash : B256) : Option Header :=
  if blockHash = hash 0 then some (canonical 0)
  else if blockHash = hash 1 then some (canonical 1)
  else if blockHash = abandonedHash then some abandoned
  else none

/-- Genesis and one block above it, with an abandoned block beside. -/
def chain : CanonicalChain where
  tree := tree
  hash := hash
  header := canonical
  head := 1
  in_tree := by decide +kernel
  number_eq := by decide +kernel
  parent_eq := by decide +kernel

def reader : HeaderReader where
  blockHash number := .ok (if number ≤ 1 then some (hash number) else none)
  header blockHash := .ok (tree blockHash)
  headersRange first last := .ok ((List.range' first (min last 1 + 1 - first)).map canonical)

theorem views : Views reader chain where
  blockHash number blockHash h := by
    have hf := Except.ok.inj h
    split at hf
    · next hnumber => exact ⟨hnumber, (Option.some.inj hf).symm⟩
    · cases hf
  header blockHash header h := Except.ok.inj h
  headersRange first last headers h := by
    intro header hmem
    rw [← Except.ok.inj h] at hmem
    obtain ⟨number, hnumber, rfl⟩ := List.mem_map.mp hmem
    have hlt : number < 2 ^ 64 := by
      have hbounds := List.mem_range'_1.mp hnumber
      omega
    have hcast : (UInt64.ofNat number).toNat = number := UInt64.toNat_ofNat_of_lt' hlt
    exact congrArg canonical hcast.symm

theorem answers : Answers reader chain where
  blockHash number := ⟨_, rfl⟩
  header blockHash := ⟨_, rfl⟩
  headersRange a last hr hhead := by
    have hl : last ≤ 1 := hhead
    have hsize : min last 1 + 1 - a = last - a + 1 := by omega
    exact congrArg (fun size => Except.ok ((List.range' a size).map canonical)) hsize

/-- The abandoned block as the checkpoint. -/
def seed : BeaconLocalStatus := ⟨3, abandonedHash, 1⟩

theorem branchTotal_seed :
    BranchTotal tree seed.head seed.headNumber seed.totalDifficulty.toNat := by
  have hgene : BranchTotal tree abandoned.parentHash 0 2 :=
    .genesis (show tree (hash 0) = some (canonical 0) by decide +kernel) (by decide +kernel)
  exact .child (show tree abandonedHash = some abandoned by decide +kernel) (by decide +kernel)
    hgene

end Fork

theorem canonicalTotalDifficulty_exact_fork :
    ∃ result, canonicalTotalDifficulty Fork.reader Fork.seed 1 = .ok result ∧
      result.toNat = 4 := by
  obtain ⟨hexact, hanswers⟩ := canonicalTotalDifficulty_exact Fork.views Fork.branchTotal_seed 1
  obtain ⟨result, hresult⟩ := hanswers Fork.answers le_rfl (by decide +kernel)
  exact ⟨result, hresult, (hexact result hresult).trans (by decide +kernel)⟩

end NeoX
