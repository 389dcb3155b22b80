import AgentChain.CleanRun
import AgentChain.Equivocation

/-!
# Where the signatures of a certificate come from

The signers of an entry of the table come from three places: from the certificates of received
blocks, from received votes and from the vote of the node itself.  If all of these satisfy a
property of signers, then so do all certificates that the node keeps, announces, serves and
stores (`NodeCerts.step`).  Nobody is ever listed twice on the way.
-/

namespace AgentChain

open Trace

/-- The certificate lists nobody twice, and every signer satisfies `Q` for the block. -/
structure CertOk (Q : Hash → CommitSigner → Prop) (blockHash : Hash)
    (signers : List CommitSigner) : Prop where
  nodup : (signers.map CommitSigner.signer).Nodup
  signed : ∀ g ∈ signers, Q blockHash g

/-- The certificate of a block. -/
def Block.CertOk (P : Platform) (Q : Hash → CommitSigner → Prop) (b : Block) : Prop :=
  AgentChain.CertOk Q (acBlockHash P b.header) b.signers

/-- The entry that a vote adds to a certificate. -/
def Vote.asSigner (v : Vote) : CommitSigner := ⟨v.signer, v.sig, v.vrfProof⟩

section CertOk

variable {Q Q' : Hash → CommitSigner → Prop} {blockHash : Hash} {signers : List CommitSigner}

lemma certOk_nil : CertOk Q blockHash [] := ⟨List.nodup_nil, by simp⟩

lemma CertOk.mono (hQ : ∀ h g, Q h g → Q' h g) (h : CertOk Q blockHash signers) :
    CertOk Q' blockHash signers :=
  ⟨h.nodup, fun g hg => hQ _ g (h.signed g hg)⟩

lemma CertOk.add (h : CertOk Q blockHash signers) {g : CommitSigner} (hg : Q blockHash g) :
    CertOk Q blockHash (addSigner signers g) := by
  refine ⟨nodup_addSigner h.nodup g, fun x hx => ?_⟩
  rcases mem_addSigner hx with hx | rfl
  · exact h.signed x hx
  · exact hg

lemma CertOk.addAll {p : Pending} (h : CertOk Q p.blockHash p.signers) {gs : List CommitSigner}
    (hgs : ∀ g ∈ gs, Q p.blockHash g) :
    CertOk Q p.blockHash (gs.foldl Pending.addSigner p).signers := by
  induction gs generalizing p with
  | nil => exact h
  | cons g gs ih =>
    obtain ⟨hg, hrest⟩ := List.forall_mem_cons.mp hgs
    exact ih (p := p.addSigner g) (h.add hg) hrest

end CertOk

/-! ### Calls -/

/-- All certificates of the table. -/
def TableCerts (Q : Hash → CommitSigner → Prop) (t : PendingTable) : Prop :=
  ∀ i p, t i = some p → CertOk Q p.blockHash p.signers

/-- The signers that a call brings along. -/
def Call.CertOk (P : Platform) (Q : Hash → CommitSigner → Prop) : Call → Prop
  | .block _ b => b.CertOk P Q
  | .vote _ v => Q v.blockHash v.asSigner
  | .propose _ _ _ b => b.CertOk P Q
  | _ => True

/-- The block in a message. -/
def Msg.block? : Msg → Option Block
  | .blockAnn buf => (acBlockDecode buf).map Prod.fst
  | .blockRes buf => (acBlockDecode buf).map Prod.fst
  | _ => none

/-- All certificates in the messages. -/
def MsgCerts (P : Platform) (Q : Hash → CommitSigner → Prop) (msgs : List Msg) : Prop :=
  ∀ m ∈ msgs, ∀ b, m.block? = some b → b.CertOk P Q

section Calls

variable {P : Platform} {Q : Hash → CommitSigner → Prop} {E : Env → Prop} {cs cs' : Consensus}
  {msgs : List Msg}

lemma TableCerts.update {t : PendingTable} (h : TableCerts Q t) {i : Fin 8} {p : Pending}
    (hp : CertOk Q p.blockHash p.signers) : TableCerts Q (Function.update t i (some p)) := by
  intro j q hq
  rw [Function.update_apply] at hq
  split_ifs at hq
  · exact Option.some.inj hq ▸ hp
  · exact h j q hq

lemma block?_blockBytes (b : Block) : (acBlockDecode (blockBytes b)).map Prod.fst = some b := by
  have hdecode := acBlockDecode_encoded b
  rw [hdecode, Option.map_some]

lemma msgCerts_append {ms ns : List Msg} :
    MsgCerts P Q (ms ++ ns) ↔ MsgCerts P Q ms ∧ MsgCerts P Q ns := by
  simp only [MsgCerts, List.forall_mem_append]

lemma msgCerts_nil : MsgCerts P Q [] := by simp [MsgCerts]

lemma msgCerts_blockAnn {b : Block} (h : b.CertOk P Q) :
    MsgCerts P Q [.blockAnn (blockBytes b)] := by
  intro m hm b' hb'
  rw [List.mem_singleton.mp hm, Msg.block?, block?_blockBytes] at hb'
  exact Option.some.inj hb' ▸ h

lemma msgCerts_blockRes {b : Block} (h : b.CertOk P Q) :
    MsgCerts P Q [.blockRes (blockBytes b)] := by
  intro m hm b' hb'
  rw [List.mem_singleton.mp hm, Msg.block?, block?_blockBytes] at hb'
  exact Option.some.inj hb' ▸ h

/-- The vote of the node itself enters the certificate when it is broadcast. -/
lemma ourVoteNow_certs (cs : Consensus) {i : Fin 8} {p : Pending} (h : TableCerts Q cs.pending)
    (hp : cs.pending i = some p)
    (hown : ∀ v ∈ votesOf (ourVoteNow P cs i p).2, Q v.blockHash v.asSigner) :
    TableCerts Q (ourVoteNow P cs i p).1.pending ∧ MsgCerts P Q (ourVoteNow P cs i p).2 := by
  obtain ⟨d, -, heq | ⟨proof, sv, heq⟩⟩ := ourVoteNow_cases (P := P) cs i p
  · rw [heq]
    exact ⟨h, msgCerts_nil⟩
  · rw [heq] at hown ⊢
    have hvote := hown (castVote P cs.kp p.height p.blockHash proof)
      (List.mem_filterMap.mpr ⟨_, List.mem_singleton.mpr rfl, voteDecode_voteEncode _⟩)
    refine ⟨h.update ((h i p hp).add hvote), ?_⟩
    intro m hm b hb
    rw [List.mem_singleton.mp hm] at hb
    cases hb

lemma Call.stashes_certs {x : Call} {p : Pending} (hx : x.CertOk P Q)
    (h : x.stashes P cs = some p) : AgentChain.CertOk Q p.blockHash p.signers := by
  cases x with
  | block env b =>
    obtain ⟨-, -, -, -, beta, -, rfl⟩ := receivedEntry_some h
    exact hx
  | propose env junk slot b =>
    obtain rfl := Option.some.inj h
    exact hx
  | vote env v => cases h
  | votePhase env slot => cases h
  | sealPhase env slot => cases h

lemma Call.announces_certs {x : Call} (hx : x.CertOk P Q) : MsgCerts P Q x.announces := by
  cases x with
  | propose env junk slot b => exact msgCerts_blockAnn hx
  | block env b => exact msgCerts_nil
  | vote env v => exact msgCerts_nil
  | votePhase env slot => exact msgCerts_nil
  | sealPhase env slot => exact msgCerts_nil

/-- The first change of a call. -/
lemma Entry.certs {x : Call} (h : Entry P x cs msgs cs') (hold : TableCerts Q cs.pending)
    (hx : x.CertOk P Q) (hown : ∀ v ∈ votesOf msgs, Q v.blockHash v.asSigner) :
    TableCerts Q cs'.pending ∧ MsgCerts P Q msgs := by
  cases h with
  | idle _ _ d sv ms target _ hd hmsgs =>
    refine ⟨hold, fun m hm b hb => ?_⟩
    obtain ⟨buf, rfl⟩ := hmsgs m hm
    cases hb
  | merged env b _ i p hp hhash =>
    refine ⟨hold.update ?_, msgCerts_nil⟩
    rw [(p.extended_addSigners b.signers).kin.hash_eq]
    exact (hold i p hp).addAll fun g hg => hhash ▸ hx.signed g hg
  | stashed _ _ d sv p hd hp =>
    exact ⟨hold.update (Call.stashes_certs hx hp), Call.announces_certs hx⟩
  | collected env v _ d i p hd hp hhash hsig =>
    refine ⟨hold.update ((hold i p hp).add ?_), msgCerts_nil⟩
    rw [hhash]
    exact hx
  | reaffirmed _ _ _ sv i p hvalidator hp =>
    exact ourVoteNow_certs { cs with slotVotes := sv } hold hp hown
  | voted _ _ _ sv i p hvalidator hbest =>
    exact ourVoteNow_certs { cs with slotVotes := sv } hold (bestAt_some hbest).1 hown

/-- The block of an entry with its certificate. -/
lemma Pending.Fits.certified {c : Chain} {p : Pending} (h : p.Fits P c)
    (hcert : CertOk Q p.blockHash p.signers) : p.certified.CertOk P Q := by
  rw [h.hash_eq] at hcert
  exact hcert

/-- Attempts to seal change no certificate. -/
lemma SettledEntries.certs {height : ℕ} {t t' : PendingTable} (h : SettledEntries height t t')
    (hold : TableCerts Q t) : TableCerts Q t' := by
  intro i q hq
  obtain ⟨p, hp, hsettled⟩ := exists_earlier (h i) hq
  rw [hsettled.kin.hash_eq, hsettled.signers_eq]
  exact hold i p hp

lemma Settle.certs (h : Settle P E cs msgs cs') (hinv : TableInv P cs)
    (hold : TableCerts Q cs.pending) : MsgCerts P Q msgs := by
  cases h with
  | timed => exact msgCerts_nil
  | offered env _ i p ms henv hp hopen =>
    rw [sealBlock]
    dsimp only
    split_ifs
    · exact msgCerts_blockAnn ((hinv.fits i p hp).certified (hold i p hp))
    · exact msgCerts_nil

lemma settled_certs (hP : P.MallocBounded) (h : Run (Settle P E) cs msgs cs')
    (hinv : TableInv P cs) (hold : TableCerts Q cs.pending) :
    TableCerts Q cs'.pending ∧ MsgCerts P Q msgs := by
  have hall : TableInv P cs' ∧ TableCerts Q cs'.pending ∧ MsgCerts P Q msgs := by
    refine h.invariant (I := fun ms t => TableInv P t ∧ TableCerts Q t.pending ∧ MsgCerts P Q ms)
      ⟨hinv, hold, msgCerts_nil⟩ ?_
    rintro ms t new u ⟨ht, hcerts, hms⟩ hs
    exact ⟨ht.settled hP (.single hs), (hs.table hP).certs hcerts,
      msgCerts_append.mpr ⟨hms, hs.certs ht hcerts⟩⟩
  exact hall.2

/-- **A call keeps the certificates in order.** -/
theorem Call.run_certs (hP : P.MallocBounded) {x : Call} (hinv : TableInv P cs)
    (hfit : x.Fitting cs) (hold : TableCerts Q cs.pending) (hx : x.CertOk P Q)
    (hown : ∀ v ∈ votesOf (x.run P cs).2, Q v.blockHash v.asSigner) :
    TableCerts Q (x.run P cs).1.pending ∧ MsgCerts P Q (x.run P cs).2 := by
  obtain ⟨cs₁, msgs₁, msgs₂, hentry, hsettle, heq⟩ := x.run_effect (P := P) x.meets_true cs
  rw [heq, votesOf_append] at hown
  obtain ⟨htable, hmsgs⟩ := hentry.certs hold hx fun v hv => hown v (List.mem_append_left _ hv)
  obtain ⟨htable', hmsgs'⟩ := settled_certs hP hsettle (hinv.entry hfit hentry) htable
  rw [heq]
  exact ⟨htable', msgCerts_append.mpr ⟨hmsgs, hmsgs'⟩⟩

end Calls

/-! ### Chains and nodes -/

/-- The ledger of a chain, with the certificates under which its blocks were committed. -/
structure CommitLog (P : Platform) (g : Genesis) (Q : Hash → CommitSigner → Prop)
    (bs : List Block) (c : Chain) : Prop where
  ledger : Ledger P g bs c
  commits : ∀ k b, bs[k]? = some b →
    ∃ c₁ cached, Ledger P g (bs.take k) c₁ ∧ CommitOk P c₁ cached b
  certs : ∀ b ∈ bs, b.CertOk P Q

/-- All certificates that a node holds are in order. -/
structure NodeCerts (P : Platform) (g : Genesis) (Q : Hash → CommitSigner → Prop) (n : Node) :
    Prop where
  inv : NodeInv P n
  table : TableCerts Q n.cs.pending
  sent : MsgCerts P Q n.sent
  built : ∀ b, n.pc = .built b → b.CertOk P Q
  log : ∃ bs, CommitLog P g Q bs n.cs.chain

section Nodes

variable {P : Platform} {g : Genesis} {Q Q' : Hash → CommitSigner → Prop} {bs : List Block}
  {c d : Chain} {n : Node} {a : NodeAction}

lemma CommitLog.step {new : List Block} (h : CommitLog P g Q bs c)
    (hs : CleanStep P (Block.CertOk P Q) c new d) : CommitLog P g Q (bs ++ new) d := by
  refine ⟨h.ledger.clean (.single hs), ?_, ?_⟩
  · cases hs with
    | reseeded hd =>
      rw [List.append_nil]
      exact h.commits
    | accepted now cached b buf hcert hpass hcommit hbuf =>
      intro k x hx
      by_cases hk : k < bs.length
      · rw [List.getElem?_append_left hk] at hx
        rw [List.take_append_of_le_length hk.le]
        exact h.commits k x hx
      · -- the new block was committed on the chain as it is
        rw [List.getElem?_append_right (not_lt.mp hk), List.getElem?_singleton] at hx
        split_ifs at hx with h0
        obtain rfl := Option.some.inj hx
        obtain rfl : k = bs.length := by omega
        rw [List.take_left]
        exact ⟨c, cached, h.ledger, hcommit⟩
  · cases hs with
    | reseeded hd =>
      rw [List.append_nil]
      exact h.certs
    | accepted now cached b buf hcert hpass hcommit hbuf =>
      exact List.forall_mem_append.mpr ⟨h.certs, List.forall_mem_singleton.mpr hcert⟩

lemma CommitLog.run {new : List Block} (h : CommitLog P g Q bs c)
    (hrun : Run (CleanStep P (Block.CertOk P Q)) c new d) : CommitLog P g Q (bs ++ new) d := by
  refine hrun.invariant (I := fun new d => CommitLog P g Q (bs ++ new) d) ?_ ?_
  · rwa [List.append_nil]
  · intro new d more e hl hs
    rw [← List.append_assoc]
    exact hl.step hs

/-- A stored block has a certificate, or it is the genesis. -/
lemma CommitLog.stored (h : CommitLog P g Q bs c) {height : UInt64} {b : Block}
    (hle : ¬ c.height < height) (hb : blockRead c.dir height = some b) : b.CertOk P Q := by
  have hheight : height.toNat ≤ bs.length := by
    rw [← h.ledger.height_eq]
    exact UInt64.le_iff_toNat_le.mp (UInt64.not_lt.mp hle)
  have hread := h.ledger.stored height.toNat hheight
  rw [UInt64.ofNat_toNat, hb] at hread
  rcases List.mem_cons.mp (List.mem_of_getElem? hread.symm) with rfl | hmem
  · exact certOk_nil
  · exact h.certs b hmem

lemma CommitLog.mono (hQ : ∀ x y, Q x y → Q' x y) (h : CommitLog P g Q bs c) :
    CommitLog P g Q' bs c :=
  ⟨h.ledger, h.commits, fun b hb => (h.certs b hb).mono hQ⟩

lemma NodeCerts.mono (hQ : ∀ x y, Q x y → Q' x y) (h : NodeCerts P g Q n) :
    NodeCerts P g Q' n := by
  obtain ⟨bs, hbs⟩ := h.log
  exact ⟨h.inv, fun i p hp => (h.table i p hp).mono hQ,
    fun m hm b hb => (h.sent m hm b hb).mono hQ, fun b hb => (h.built b hb).mono hQ,
    bs, hbs.mono hQ⟩

/-- What a node is called for is what it has received or built. -/
lemma Call.certOk_of_call {x : Call} (h : NodeCerts P g Q n) (hcall : a.call n = some x)
    (hreceived : ∀ env m, a = .receive env m → MsgCerts P Q [m] ∧
      ∀ v ∈ votesOf [m], Q v.blockHash v.asSigner) : x.CertOk P Q := by
  cases a with
  | receive env m =>
    obtain ⟨hblock, hvote⟩ := hreceived env m rfl
    cases m with
    | headersReq buf => cases hcall
    | commitVote buf =>
      obtain ⟨v, hv, rfl⟩ := Option.map_eq_some_iff.mp hcall
      exact hvote v (List.mem_filterMap.mpr ⟨_, List.mem_singleton.mpr rfl, hv⟩)
    | blockAnn buf =>
      obtain ⟨r, hr, rfl⟩ := Option.map_eq_some_iff.mp hcall
      exact hblock _ (List.mem_singleton.mpr rfl) r.1 (by rw [Msg.block?, hr, Option.map_some])
    | blockRes buf =>
      obtain ⟨r, hr, rfl⟩ := Option.map_eq_some_iff.mp hcall
      exact hblock _ (List.mem_singleton.mpr rfl) r.1 (by rw [Msg.block?, hr, Option.map_some])
  | own a =>
    rcases NodeAction.call_cases hcall with ⟨env, m, b, heq, -⟩ | ⟨env, m, v, heq, -⟩ |
      ⟨env, junk, b, -, hpc, rfl⟩ | ⟨env, -, -, rfl⟩ | ⟨env, -, -, rfl⟩
    · cases heq
    · cases heq
    · exact h.built b hpc
    · exact trivial
    · exact trivial

/-- **An undisturbed action keeps all certificates in order**, when what the node receives and
the votes that it casts are. -/
theorem NodeCerts.step (hP : P.MallocBounded) (h : NodeCerts P g Q n) (ha : Undisturbed P n a)
    (hreceived : ∀ env m, a = .receive env m → MsgCerts P Q [m] ∧
      ∀ v ∈ votesOf [m], Q v.blockHash v.asSigner)
    (hown : ∀ v ∈ votesOf (n.exec P a).sent, Q v.blockHash v.asSigner) :
    NodeCerts P g Q (n.exec P a) := by
  obtain ⟨bs, hlog⟩ := h.log
  have hbuilt : ∀ b, (n.exec P a).pc = .built b → b.CertOk P Q := by
    intro b hb
    rcases (n.exec_pc a).2 _ hb with hold | ⟨proof, cands, b₀, -, hb₀, rfl⟩
    · exact h.built b hold
    · obtain ⟨-, -, rfl⟩ := acChainBuildBlock_some hP hb₀
      exact certOk_nil
  cases hcall : a.call n with
  | some x =>
    obtain ⟨hcs, hsent⟩ := Node.exec_called (P := P) hcall
    rw [hsent, votesOf_append] at hown
    have hfit := Call.fitting_of_call h.inv hcall
    have hx := Call.certOk_of_call h hcall hreceived
    have hnew : ∀ v ∈ votesOf (x.run P n.cs).2, Q v.blockHash v.asSigner :=
      fun v hv => hown v (List.mem_append_right _ hv)
    obtain ⟨htable, hmsgs⟩ := Call.run_certs hP h.inv.table hfit h.table hx hnew
    have hcertified : ∀ y, a.call n = some y → ∀ msgs cs', Entry P y n.cs msgs cs' →
        (∃ rest, (y.run P n.cs).2 = msgs ++ rest) →
        ∀ i p, cs'.pending i = some p → p.certified.CertOk P Q := by
      rintro y hy msgs cs' hentry ⟨rest, hrest⟩ i p hp
      obtain rfl := Option.some.inj (hcall.symm.trans hy)
      rw [hrest, votesOf_append] at hnew
      obtain ⟨htable₁, -⟩ := hentry.certs h.table hx fun v hv => hnew v (List.mem_append_left _ hv)
      exact ((h.inv.table.entry hfit hentry).fits i p hp).certified (htable₁ i p hp)
    obtain ⟨new, hclean⟩ := n.exec_clean hP h.inv ha hcertified
    refine ⟨h.inv.step hP, ?_, ?_, hbuilt, bs ++ new, hlog.run hclean⟩
    · rw [hcs]
      exact htable
    · rw [hsent]
      exact msgCerts_append.mpr ⟨h.sent, hmsgs⟩
  | none =>
    obtain ⟨e, msgs, hd, hcs, hsent, hserved⟩ := Node.exec_uncalled hP hcall
    refine ⟨h.inv.step hP, ?_, ?_, hbuilt, bs, ?_⟩
    · rw [hcs]
      exact h.table
    · rw [hsent]
      refine msgCerts_append.mpr ⟨h.sent, ?_⟩
      rcases hserved with rfl | ⟨height, b, hle, hread, rfl⟩
      · exact msgCerts_nil
      · exact msgCerts_blockRes (hlog.stored hle hread)
    · have hstep := hlog.step (.reseeded hd)
      rwa [List.append_nil, ← show (n.exec P a).cs.chain = e by rw [hcs]] at hstep

end Nodes

end AgentChain
