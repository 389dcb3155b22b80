import AgentChain.Backing

/-!
# Networks of nodes

Any number of nodes exchange their broadcasts.  A message may be delivered to any node, at any
time after it was sent, any number of times or never, so that delay, reordering, duplication
and loss are all covered by the choice of the actions.  Nobody else sends anything.

In a run whose nodes keep their cast votes and are not disturbed, every signature in every
certificate is a vote of one of the nodes (`NetInv.step`).
-/

namespace AgentChain

open Trace

/-- The nodes of a network. -/
abbrev Net (ι : Type*) := ι → Node

/-- What can happen in a network. -/
inductive NetAction (ι : Type*) where
  | own (j : ι) (a : OwnAction)
  /-- Node `j` receives message number `k` of node `i`. -/
  | deliver (i : ι) (k : ℕ) (j : ι) (env : Env)

/-- The action at a node that this comes down to; nothing happens when the message has not
been sent yet. -/
def NetAction.happens {ι : Type*} (net : Net ι) : NetAction ι → Option (ι × NodeAction)
  | .own j a => some (j, .own a)
  | .deliver i k j env => (net i).sent[k]?.map fun m => (j, .receive env m)

section Exec

variable {ι : Type*} [DecidableEq ι] (P : Platform)

/-- One action in a network. -/
def Net.exec (net : Net ι) (x : NetAction ι) : Net ι :=
  match x.happens net with
  | none => net
  | some (j, a) => Function.update net j ((net j).exec P a)

/-- One action of a run in which every node satisfies `C` where it acts. -/
def NetMove (C : Node → NodeAction → Prop) (net : Net ι) (xs : List (NetAction ι))
    (net' : Net ι) : Prop :=
  ∃ x, xs = [x] ∧ (∀ j a, x.happens net = some (j, a) → C (net j) a) ∧ net' = net.exec P x

/-- A run of a network. -/
abbrev NetRun (C : Node → NodeAction → Prop) : Net ι → List (NetAction ι) → Net ι → Prop :=
  Run (NetMove P C)

end Exec

/-- The messages that are received in the course of some actions. -/
def receivedIn (as : List NodeAction) : List Msg :=
  as.filterMap fun
    | .receive _ m => some m
    | .own _ => none

/-- A node may act for a while, on what the others have sent so far. -/
lemma netRun_stretch {ι : Type*} [DecidableEq ι] {P : Platform} {C : Node → NodeAction → Prop}
    (net : Net ι) (j : ι) {as : List NodeAction} (h : AllMeet P C (net j) as)
    (hsent : ∀ m ∈ receivedIn as, ∃ i, i ≠ j ∧ m ∈ (net i).sent) :
    ∃ xs, NetRun P C net xs (Function.update net j ((net j).execAll P as)) := by
  induction as generalizing net with
  | nil =>
    refine ⟨[], ?_⟩
    rw [Node.execAll, List.foldl_nil, Function.update_eq_self]
    exact .refl net
  | cons a as ih =>
    have hx : ∃ x : NetAction ι, x.happens net = some (j, a) := by
      cases a with
      | own a => exact ⟨.own j a, rfl⟩
      | receive env m =>
        obtain ⟨i, -, hm⟩ := hsent m (List.mem_filterMap.mpr ⟨_, List.mem_cons_self, rfl⟩)
        obtain ⟨k, hk⟩ := List.mem_iff_getElem?.mp hm
        exact ⟨.deliver i k j env, by rw [NetAction.happens, hk, Option.map_some]⟩
    obtain ⟨x, hx⟩ := hx
    have hexec : net.exec P x = Function.update net j ((net j).exec P a) := by
      rw [Net.exec, hx]
    have hmeets : ∀ i b, x.happens net = some (i, b) → C (net i) b := by
      intro i b hb
      obtain ⟨rfl, rfl⟩ := Prod.mk.inj (Option.some.inj (hx.symm.trans hb))
      exact h.1
    obtain ⟨xs, hxs⟩ := ih (net.exec P x) (by rw [hexec, Function.update_self]; exact h.2) (by
      intro m hm
      obtain ⟨a', ha', hm⟩ := List.mem_filterMap.mp hm
      obtain ⟨i, hi, hmem⟩ := hsent m (List.mem_filterMap.mpr ⟨a', List.mem_cons_of_mem a ha', hm⟩)
      exact ⟨i, hi, by rwa [hexec, Function.update_of_ne hi]⟩)
    rw [hexec, Function.update_self, Function.update_idem] at hxs
    exact ⟨[x] ++ xs, (Run.single ⟨x, rfl, hmeets, hexec.symm⟩).trans hxs⟩

/-- A vote of one of the nodes is in the certificate. -/
def Net.Signed {ι : Type*} (net : Net ι) (blockHash : Hash) (g : CommitSigner) : Prop :=
  ∃ j, ∃ v ∈ votesOf (net j).sent, v.blockHash = blockHash ∧ v.asSigner = g

/-- A node that keeps its cast votes and whose writes succeed. -/
def Careful (P : Platform) (n : Node) (a : NodeAction) : Prop :=
  KeepsCastVotes n a ∧ Undisturbed P n a

instance (P : Platform) (n : Node) (a : NodeAction) : Decidable (Careful P n a) :=
  inferInstanceAs (Decidable (_ ∧ _))

/-- A network of nodes with the given keys, in which all certificates consist of votes of the
nodes, and no node has cast votes that contradict each other. -/
structure NetInv (P : Platform) (g : Genesis) {ι : Type*} (kp : ι → Keypair) (net : Net ι) :
    Prop where
  key : ∀ j, (net j).cs.kp = kp j
  lock : ∀ j, (net j).cs.LockInv
  log : ∀ j, VoteLog P (net j)
  certs : ∀ j, NodeCerts P g net.Signed (net j)

section Invariant

variable {ι : Type*} {P : Platform} {g : Genesis} {kp : ι → Keypair} {net net' : Net ι}

/-- Broadcasts are not taken back. -/
lemma Net.Signed.mono (hsent : ∀ j, ∃ new, (net' j).sent = (net j).sent ++ new) {h : Hash}
    {s : CommitSigner} (hs : net.Signed h s) : net'.Signed h s := by
  obtain ⟨j, v, hv, hhash, hsigner⟩ := hs
  obtain ⟨new, hnew⟩ := hsent j
  refine ⟨j, v, ?_, hhash, hsigner⟩
  rw [hnew, votesOf_append]
  exact List.mem_append_left _ hv

/-- What a node receives was sent by a node. -/
lemma NetInv.received (h : NetInv P g kp net) {x : NetAction ι} {j : ι} {env : Env} {m : Msg}
    (hx : x.happens net = some (j, .receive env m)) :
    MsgCerts P net.Signed [m] ∧ ∀ v ∈ votesOf [m], net.Signed v.blockHash v.asSigner := by
  cases x with
  | own i a => cases hx
  | deliver i k j' env' =>
    obtain ⟨m', hm', heq⟩ := Option.map_eq_some_iff.mp hx
    obtain ⟨-, hreceive⟩ := Prod.mk.inj heq
    obtain ⟨-, rfl⟩ := NodeAction.receive.inj hreceive
    have hmem := List.mem_of_getElem? hm'
    refine ⟨fun m hm => (h.certs i).sent m (List.mem_singleton.mp hm ▸ hmem), fun v hv => ?_⟩
    obtain ⟨m, hm, hv⟩ := List.mem_filterMap.mp hv
    exact ⟨i, v, List.mem_filterMap.mpr ⟨m, List.mem_singleton.mp hm ▸ hmem, hv⟩, rfl, rfl⟩

variable [DecidableEq ι]

/-- **One action of a careful node keeps the invariant.** -/
theorem NetInv.step (hP : P.MallocBounded) (h : NetInv P g kp net) {x : NetAction ι}
    (hx : ∀ j a, x.happens net = some (j, a) → Careful P (net j) a) :
    NetInv P g kp (net.exec P x) := by
  rw [Net.exec]
  cases hhappens : x.happens net with
  | none => exact h
  | some r =>
    obtain ⟨j, a⟩ := r
    obtain ⟨hkeeps, hundisturbed⟩ := hx j a hhappens
    obtain ⟨new, hsent, hlock, hgrown⟩ := (net j).exec_lockStep hP a
    obtain ⟨-, hlockInv, -⟩ := hlock.lockLe (h.lock j) hgrown
    obtain ⟨net', hnet'⟩ : ∃ net' : Net ι, net' = Function.update net j ((net j).exec P a) :=
      ⟨_, rfl⟩
    have hj : net' j = (net j).exec P a := by rw [hnet', Function.update_self]
    have hother : ∀ i, i ≠ j → net' i = net i := fun i hi => by
      rw [hnet', Function.update_of_ne hi]
    have hmono : ∀ b s, net.Signed b s → net'.Signed b s := by
      refine fun b s => Net.Signed.mono fun i => ?_
      by_cases hi : i = j
      · subst hi
        exact ⟨new, by rw [hj, hsent]⟩
      · exact ⟨[], by rw [hother i hi, List.append_nil]⟩
    have hcerts : NodeCerts P g net'.Signed ((net j).exec P a) := by
      refine ((h.certs j).mono hmono).step hP hundisturbed ?_ ?_
      · rintro env m rfl
        obtain ⟨hblock, hvote⟩ := h.received hhappens
        exact ⟨fun m' hm' b hb => (hblock m' hm' b hb).mono hmono,
          fun v hv => hmono _ _ (hvote v hv)⟩
      · intro v hv
        exact ⟨j, v, by rwa [hj], rfl, rfl⟩
    have hall : ∀ i, (net' i).cs.kp = kp i ∧ (net' i).cs.LockInv ∧ VoteLog P (net' i) ∧
        NodeCerts P g net'.Signed (net' i) := by
      intro i
      by_cases hi : i = j
      · subst hi
        rw [hj]
        exact ⟨hlock.kp_eq.trans (h.key i), hlockInv, (h.log i).step hP (h.lock i) hkeeps, hcerts⟩
      · -- everything at the other nodes is as before
        rw [hother i hi]
        exact ⟨h.key i, h.lock i, h.log i, (h.certs i).mono hmono⟩
    rw [hnet'] at hall
    exact ⟨fun i => (hall i).1, fun i => (hall i).2.1, fun i => (hall i).2.2.1,
      fun i => (hall i).2.2.2⟩

/-- The invariant along a run. -/
lemma NetInv.run (hP : P.MallocBounded) (h : NetInv P g kp net) {xs : List (NetAction ι)}
    (hrun : NetRun P (Careful P) net xs net') : NetInv P g kp net' := by
  refine Run.invariant (I := fun _ net => NetInv P g kp net) hrun h ?_
  rintro _ m _ m' hm ⟨x, -, hx, rfl⟩
  exact hm.step hP hx

end Invariant

end AgentChain
