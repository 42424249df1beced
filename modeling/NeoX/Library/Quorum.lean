import Mathlib.Data.Finset.Card
import Mathlib.Tactic

/-!
# Quorum intersection

Two groups of members that are large enough, compared with the number of members
and of faulty ones, share a member that is not faulty.
-/

namespace Quorum

variable {α : Type*} [DecidableEq α]

end Quorum
