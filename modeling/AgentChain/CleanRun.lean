import AgentChain.ProposalTable

/-!
# Runs without failed writes

When a write of `ac_chain_accept_block` fails, or the buffer for `state.bin` is refused, the
chain is left between two blocks.  This file is about the actions of a node in which that does
not happen (`Undisturbed`).  Such an action moves the chain by complete commits only
(`Node.exec_clean`), so that the ledger of the node is that of a chain which has accepted one
block after the other.
-/

namespace AgentChain

open Trace

/-- A step of a chain that leaves nothing half done: at most the seed cache changes, or a block
that satisfies `Q`, has enough votes and passes all checks is committed. -/
inductive CleanStep (P : Platform) (Q : Block → Prop) : Chain → List Block → Chain → Prop
  | reseeded {c d : Chain} (h : c.Reseeded P d) : CleanStep P Q c [] d
  | accepted {c : Chain} (now : UInt64) (k : Option (UInt64 × Hash)) (b : Block) (buf : Bytes)
      (hQ : Q b) (hpass : PassesChecks P now c b) (hcommit : CommitOk P c k b)
      (hbuf : acStateSerialize P (postState P c.state b) = some buf)
      (hok : (acChainAcceptBlock P now .all c b).1 = .ok)
      (hvotes : enoughVotes c b.signers = true) :
      CleanStep P Q c [b] (committed P c b buf)

section Chains

variable {P : Platform} {Q : Block → Prop} {g : Genesis} {bs : List Block} {c d : Chain}

/-- A call whose writes succeed is a clean step. -/
lemma acChainAcceptBlock_clean (hP : P.MallocBounded) (now : UInt64) {b : Block} (hQ : Q b)
    (hvotes : enoughVotes c b.signers = true)
    (hbuf : PassesChecks P now c b → (acStateSerialize P (postState P c.state b)).isSome) :
    ∃ new, CleanStep P Q c new (acChainAcceptBlock P now .all c b).2 := by
  obtain ⟨k, -, ⟨hreach, d, hd, heq⟩ | ⟨-, -, -, hres⟩⟩ := acChainAcceptBlock_cases hP now .all c b
  · obtain ⟨buf, hser⟩ := Option.isSome_iff_exists.mp (hbuf hreach.passes)
    have hok : (acChainAcceptBlock P now .all c b).1 = .ok := by
      rw [heq]
      exact persist_all ((congrArg (acStateSerialize P) hd.state_eq).trans hser)
    obtain ⟨-, -, -, -, buf', hbuf', hcommitted⟩ := acChainAcceptBlock_ok hP hok
    rw [hcommitted]
    exact ⟨[b], .accepted now k b buf' hQ hreach.passes hreach.commit hbuf' hok hvotes⟩
  · exact ⟨[], .reseeded hres⟩

/-- The height counts the commits. -/
lemma cleanRun_height (h : Run (CleanStep P Q) c bs d) :
    d.height.toNat = c.height.toNat + bs.length ∧ (bs = [] → c.Reseeded P d) := by
  refine h.invariant (I := fun bs d => d.height.toNat = c.height.toNat + bs.length ∧
    (bs = [] → c.Reseeded P d)) ⟨rfl, fun _ => .refl c⟩ ?_
  rintro bs d new e ⟨hheight, hseed⟩ hs
  cases hs with
  | reseeded hd =>
    rw [List.append_nil, hd.same.height_eq]
    exact ⟨hheight, fun hnil => (hseed hnil).trans hd⟩
  | accepted now k b buf _ hpass hcommit hbuf =>
    have hb : (committed P d b buf).height.toNat = d.height.toNat + 1 :=
      height_of_checkLink hpass.link
    refine ⟨?_, fun hnil => absurd hnil (by simp)⟩
    rw [hb, hheight, List.length_append, List.length_singleton, Nat.add_assoc]

/-- Clean steps extend the ledger. -/
lemma Ledger.clean (h : Ledger P g bs c) {new : List Block} (hrun : Run (CleanStep P Q) c new d) :
    Ledger P g (bs ++ new) d := by
  refine hrun.invariant (I := fun new d => Ledger P g (bs ++ new) d) ?_ ?_
  · rwa [List.append_nil]
  · intro new d more e hl hs
    rw [← List.append_assoc]
    cases hs with
    | reseeded hd =>
      rw [List.append_nil]
      exact hl.reseeded hd
    | accepted now k b buf _ hpass hcommit hbuf => exact hl.commit hpass hbuf

end Chains

/-! ### Calls -/

/-- Whether the buffer for `state.bin` is granted for every block that a call may commit: those
in the table, and the one that it puts there. -/
def buffersGranted (P : Platform) (cs : Consensus) (new : Option Pending) : Bool :=
  (entryIdx.all fun i => (cs.pending i).all fun p =>
    (acStateSerialize P (postState P cs.chain.state p.block)).isSome) &&
  new.all fun p => (acStateSerialize P (postState P cs.chain.state p.block)).isSome

section Calls

variable {P : Platform} {Q : Block → Prop} {cs cs' : Consensus} {msgs : List Msg}

/-- The same proposal with the same signers makes the same block. -/
lemma Pending.Settled.certified_eq {height : ℕ} {p q : Pending} (h : p.Settled height q) :
    q.certified = p.certified := by
  have hheader := h.kin.header_eq
  have htxs := h.kin.txs_eq
  have hsigners := h.signers_eq
  rw [Pending.certified, Pending.certified, Block.withSigners, Block.withSigners, Block.mk.injEq]
  exact ⟨hheader, htxs, hsigners⟩

/-- Attempts to seal move the chain by clean steps. -/
lemma settled_clean (hP : P.MallocBounded) (hinv : TableInv P cs)
    (hQ : ∀ i p, cs.pending i = some p → Q p.certified)
    (hbuf : ∀ i p, cs.pending i = some p →
      (acStateSerialize P (postState P cs.chain.state p.block)).isSome)
    (h : Run (Settle P fun env => env.writes = .all) cs msgs cs') :
    ∃ new, Run (CleanStep P Q) cs.chain new cs'.chain := by
  have hboth : SettledEntries cs'.chain.height.toNat cs.pending cs'.pending ∧
      ∃ new, Run (CleanStep P Q) cs.chain new cs'.chain := by
    refine h.invariant (I := fun _ t => SettledEntries t.chain.height.toNat cs.pending t.pending ∧
      ∃ new, Run (CleanStep P Q) cs.chain new t.chain) ⟨.refl _ _, [], .refl _⟩ ?_
    rintro _ t new u ⟨htable, bs, hbs⟩ hs
    refine ⟨htable.trans (hs.lockStep hP).2.2.height_le (hs.table hP), ?_⟩
    cases hs with
    | timed => exact ⟨bs, hbs⟩
    | offered env _ i p ms henv hp hopen hvotes =>
      obtain ⟨hheight, hseed⟩ := cleanRun_height hbs
      obtain ⟨p₀, hold, hsettled⟩ := exists_earlier (htable i) hp
      have hkin := hsettled.kin
      have hclean : ∃ new, CleanStep P Q t.chain new
          (acChainAcceptBlock P env.acceptMs .all t.chain p.certified).2 := by
        refine acChainAcceptBlock_clean hP env.acceptMs ?_ hvotes fun hpass => ?_
        · rw [hsettled.certified_eq]
          exact hQ i p₀ hold
        · -- a block above the tip was in the table before, and nothing was committed since
          have hfits := hinv.fits i p₀ hold
          have hb : p.block.header.height.toNat = t.chain.height.toNat + 1 :=
            height_of_checkLink hpass.link
          have hle := hfits.height_le
          rw [hkin.header_eq, ← hfits.height_eq] at hb
          have hnil : bs = [] := List.length_eq_zero_iff.mp (by omega)
          have hpost : postState P cs.chain.state p.certified =
              postState P cs.chain.state p₀.block := postState_congr hkin.header_eq hkin.txs_eq
          rw [(hseed hnil).same.state_eq, hpost]
          exact hbuf i p₀ hold
      obtain ⟨new, hnew⟩ := hclean
      refine ⟨bs ++ new, .tail hbs ?_⟩
      rw [sealBlock, henv]
      dsimp only
      split_ifs
      · exact hnew
      · exact hnew
  exact hboth.2

/-- The buffers for the blocks in the table behind the first change of a call. -/
lemma Entry.granted {x : Call} (h : Entry P x cs msgs cs')
    (hbuf : buffersGranted P cs (x.stashes P cs) = true) (i : Fin 8) (p : Pending)
    (hp : cs'.pending i = some p) :
    (acStateSerialize P (postState P cs'.chain.state p.block)).isSome := by
  rw [buffersGranted, Bool.and_eq_true, List.all_eq_true] at hbuf
  have hgranted := hbuf.1 i (List.mem_finRange i)
  rw [h.lockStep.2.same.state_eq]
  rcases h.table with hsame | ⟨q, hq, htable⟩
  · obtain ⟨p₀, hold, hkin, -⟩ := exists_earlier (hsame i) hp
    rw [hold, Option.all_some] at hgranted
    rwa [postState_congr hkin.header_eq hkin.txs_eq]
  · rw [htable, Function.update_apply] at hp
    split_ifs at hp
    · obtain rfl := Option.some.inj hp
      have hnew := hbuf.2
      rwa [hq, Option.all_some] at hnew
    · rwa [hp, Option.all_some] at hgranted

/-- **A call moves the chain by clean steps**, when its writes succeed. -/
theorem Call.run_clean (hP : P.MallocBounded) {x : Call} (hinv : TableInv P cs)
    (hQ : ∀ msgs cs', Entry P x cs msgs cs' → (∃ rest, (x.run P cs).2 = msgs ++ rest) →
      ∀ i p, cs'.pending i = some p → Q p.certified)
    (hx : x.Fitting cs) (hwrites : x.Meets fun env => env.writes = .all)
    (hbuf : buffersGranted P cs (x.stashes P cs) = true) :
    ∃ new, Run (CleanStep P Q) cs.chain new (x.run P cs).1.chain := by
  obtain ⟨cs₁, msgs₁, msgs₂, hentry, hsettle, hmsgs⟩ := x.run_effect (P := P) hwrites cs
  have hseed := hentry.lockStep.2
  obtain ⟨new, hnew⟩ := settled_clean hP (hinv.entry hx hentry) (hQ _ _ hentry ⟨msgs₂, hmsgs⟩)
    (hentry.granted hbuf) hsettle
  exact ⟨[] ++ new, (Run.single (CleanStep.reseeded hseed)).trans hnew⟩

end Calls

/-! ### Nodes -/

/-- The surroundings of an action. -/
def NodeAction.envs : NodeAction → List Env
  | .receive env _ => [env]
  | .own (.propose env _) => [env]
  | .own (.vote env) => [env]
  | .own (.seal env) => entryIdx.map env
  | .own _ => []

/-- The writes of the action succeed, and the buffers for `state.bin` are granted. -/
def Undisturbed (P : Platform) (n : Node) (a : NodeAction) : Prop :=
  (∀ env ∈ a.envs, env.writes = .all) ∧ buffersGranted P n.cs (a.stashes P n) = true

instance (P : Platform) (n : Node) (a : NodeAction) : Decidable (Undisturbed P n a) :=
  inferInstanceAs (Decidable (_ ∧ _))

section Nodes

variable {P : Platform} {Q : Block → Prop} {n : Node} {a : NodeAction}

lemma NodeAction.meets_of_envs {E : Env → Prop} {x : Call} (hx : a.call n = some x)
    (h : ∀ env ∈ a.envs, E env) : x.Meets E := by
  rcases NodeAction.call_cases hx with ⟨env, m, b, rfl, rfl⟩ | ⟨env, m, v, rfl, rfl⟩ |
    ⟨env, junk, b, rfl, -, rfl⟩ | ⟨env, rfl, -, rfl⟩ | ⟨env, rfl, -, rfl⟩
  · exact h env (List.mem_singleton.mpr rfl)
  · exact h env (List.mem_singleton.mpr rfl)
  · exact h env (List.mem_singleton.mpr rfl)
  · exact h env (List.mem_singleton.mpr rfl)
  · exact fun i => h _ (List.mem_map_of_mem (List.mem_finRange i))

/-- **An undisturbed action moves the chain by clean steps.** -/
theorem Node.exec_clean (hP : P.MallocBounded) (hinv : NodeInv P n) (ha : Undisturbed P n a)
    (hQ : ∀ x, a.call n = some x → ∀ msgs cs', Entry P x n.cs msgs cs' →
      (∃ rest, (x.run P n.cs).2 = msgs ++ rest) → ∀ i p, cs'.pending i = some p → Q p.certified) :
    ∃ new, Run (CleanStep P Q) n.cs.chain new (n.exec P a).cs.chain := by
  cases hcall : a.call n with
  | some x =>
    rw [(Node.exec_called hcall).1]
    have hbuf := ha.2
    rw [NodeAction.stashes, hcall, Option.bind_some] at hbuf
    exact Call.run_clean hP hinv.table (hQ x hcall) (Call.fitting_of_call hinv hcall)
      (NodeAction.meets_of_envs hcall ha.1) hbuf
  | none =>
    obtain ⟨d, msgs, hd, hcs, -⟩ := Node.exec_uncalled hP hcall
    rw [hcs]
    exact ⟨[], .single (.reseeded hd)⟩

/-- **An undisturbed node has a ledger.** -/
theorem NodeRun.ledger (hP : P.MallocBounded) {g : Genesis} {es : List NodeEvent} {c : Chain}
    (hc : NodeReachable P g es c) {kp : Keypair} {validator : Bool} {slot : UInt64}
    {as : List NodeAction}
    (h : NodeRun P (Undisturbed P) (Node.initial c kp validator slot) as n) :
    ∃ bs, Ledger P g bs n.cs.chain := by
  refine (h.invariant (I := fun m => NodeInv P m ∧ ∃ bs, Ledger P g bs m.cs.chain)
    ⟨NodeInv.initial hP hc kp validator slot, _, (hc.ledger hP).1⟩ ?_).2
  rintro m a ⟨hinv, bs, hl⟩ ha
  obtain ⟨new, hclean⟩ := m.exec_clean (Q := fun _ => True) hP hinv ha
    fun _ _ _ _ _ _ _ _ _ => trivial
  exact ⟨hinv.step hP, _, hl.clean hclean⟩

end Nodes

end AgentChain
