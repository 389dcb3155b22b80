import AgentChain.Lib.Window
import AgentChain.Peers

/-!
# The first message of a connection

`send_hello` writes the key and the address of the node, and up to eight of its peers, into a
buffer of 1500 bytes; `parse_hello` reads such a message from bytes that nobody has checked.

A peer is left out when the room is short.  With host names of at most 127 bytes this never
happens: the eighth peer ends at byte 1467, and with the 32 bytes that are kept free this is 1499.
-/

namespace AgentChain

open Window

/-! ### Sending -/

/-- `AC_HELLO_PEER_MAX` -/
def acHelloPeerMax : ℕ := 8

/-- The size of the buffer of `send_hello`. -/
def helloBufBytes : ℕ := 1500

/-- The fields of `ac_net_config_t` that are sent. -/
structure NetConfig where
  listenPort : UInt16
  externalHost : HostName
  chainId : UInt64
  keypair : Keypair

/-- `ac_be16` -/
def acBe16 (v : UInt16) : Bytes := beEncode 2 v.toNat

/-- A host name behind its length. -/
def hostField (host : Bytes) : Bytes := UInt8.ofNat host.length :: host

/-- A peer in the list. -/
def peerField (q : Peer) : Bytes := q.peerId.bytes ++ acBe16 q.port ++ hostField q.host.bytes

/-- The loop of `send_hello` over the peer table, with `pos` bytes in the buffer: the number of
peers and their bytes. -/
def sendPeers : List Peer → ℕ → ℕ → Bytes → ℕ × Bytes
  | [], npeers, _, out => (npeers, out)
  | q :: qs, npeers, pos, out =>
      if acHelloPeerMax ≤ npeers then (npeers, out)
      else if !q.inUse || !q.peerIdKnown then sendPeers qs npeers pos out
      else if q.host.bytes = [] ∨ q.port = 0 then sendPeers qs npeers pos out
      else
        let qhl := q.host.bytes.length
        if 250 < qhl then sendPeers qs npeers pos out
        else if helloBufBytes < pos + 32 + 2 + 1 + qhl + 32 then (npeers, out)
        else sendPeers qs (npeers + 1) (pos + 32 + 2 + 1 + qhl) (out ++ peerField q)

/-- The fields before the list of peers. -/
def helloHead (cfg : NetConfig) : Bytes :=
  acBe64 cfg.chainId ++ cfg.keypair.pk.bytes ++ acBe16 cfg.listenPort ++
    hostField (cfg.externalHost.bytes.take 250)

/-- `send_hello`: the payload. -/
def sendHello (cfg : NetConfig) (peers : PeerTable) : Bytes :=
  let head := helloHead cfg
  let r := sendPeers ((List.finRange acMaxPeers).map peers) 0 (head.length + 1) []
  head ++ UInt8.ofNat r.1 :: r.2

/-! ### Parsing -/

/-- `hello_peer_t`, with the bytes that are written to `host`. -/
structure HelloPeer where
  peerId : Addr
  port : UInt16
  host : Bytes
deriving DecidableEq

/-- What `parse_hello` returns, with the bytes that it writes to `host`. -/
structure Hello where
  chainId : UInt64
  peerId : Addr
  port : UInt16
  host : Bytes
  gossip : List HelloPeer
deriving DecidableEq

/-- A port from its two bytes. -/
def rdPort (hi lo : UInt8) : UInt16 := hi.toUInt16 <<< 8 ||| lo.toUInt16

/-- The loop of `parse_hello` over the list of peers, for at most as many rounds as the first
argument says; `none` when a read leaves the payload. -/
def parsePeers (buf : Bytes) (gossipCap : ℕ) : ℕ → ℕ → List HelloPeer → Option (List HelloPeer)
  | 0, _, kept => some kept
  | i + 1, pos, kept =>
      if buf.length < pos + 32 + 2 + 1 then some kept
      else do
        let pid ← readAt buf pos 32
        let hi ← buf[pos + 32]?
        let lo ← buf[pos + 33]?
        let phl ← buf[pos + 34]?
        if buf.length < pos + 35 + phl.toNat then some kept
        else if kept.length < gossipCap then do
          let c := if phl.toNat < 127 then phl.toNat else 127
          let host ← readAt buf (pos + 35) c
          parsePeers buf gossipCap i (pos + 35 + phl.toNat)
            (kept ++ [⟨ByteArr.ofBytes 32 pid, rdPort hi lo, host ++ [0]⟩])
        else parsePeers buf gossipCap i (pos + 35 + phl.toNat) kept

/-- `parse_hello`: `none` when a read leaves the payload, `some none` when it returns -1.  The
difference `host_cap - 1` is one of `size_t`; a list that is not asked for has no capacity. -/
def parseHello (buf : Bytes) (hostCap : UInt64) (gossipCap : ℕ) : Option (Option Hello) :=
  if buf.length < 8 + 32 + 2 + 1 then some none
  else do
    let chainId ← readAt buf 0 8
    let peerId ← readAt buf 8 32
    let hi ← buf[40]?
    let lo ← buf[41]?
    let hl ← buf[42]?
    if buf.length < 43 + hl.toNat then some none
    else do
      let copy := if hl.toUInt64 < hostCap - 1 then hl.toUInt64 else hostCap - 1
      let host ← readAt buf 43 copy.toNat
      let pos := 43 + hl.toNat
      let hello : Hello :=
        ⟨acRd64 chainId, ByteArr.ofBytes 32 peerId, rdPort hi lo, host ++ [0], []⟩
      if buf.length ≤ pos ∨ gossipCap = 0 then some (some hello)
      else do
        let np ← buf[pos]?
        let np := if acHelloPeerMax < np.toNat then acHelloPeerMax else np.toNat
        let gossip ← parsePeers buf gossipCap np (pos + 1) []
        some (some { hello with gossip := gossip })

/-! ### What is sent -/

/-- A known peer with an address. -/
def Peer.advertised (q : Peer) : Bool :=
  q.inUse && q.peerIdKnown && decide (q.host.bytes ≠ []) && decide (q.port ≠ 0)

/-- The first eight of them, in the order of the table. -/
def advertisedPeers (peers : PeerTable) : List Peer :=
  (((List.finRange acMaxPeers).map peers).filter Peer.advertised).take acHelloPeerMax

lemma length_acBe16 (v : UInt16) : (acBe16 v).length = 2 := length_beEncode 2 _

lemma length_peerField (q : Peer) : (peerField q).length = 32 + 2 + 1 + q.host.bytes.length := by
  rw [peerField, hostField, List.length_append, List.length_append, length_acBe16,
    List.length_cons, ByteArr.length_bytes]
  omega

lemma take_externalHost (cfg : NetConfig) :
    cfg.externalHost.bytes.take 250 = cfg.externalHost.bytes :=
  List.take_of_length_le (by have := cfg.externalHost.length_lt; omega)

lemma length_helloHead (cfg : NetConfig) :
    (helloHead cfg).length = 43 + cfg.externalHost.bytes.length := by
  rw [helloHead, hostField, take_externalHost, List.length_append, List.length_append,
    List.length_append, length_acBe64, length_acBe16, List.length_cons, ByteArr.length_bytes]
  omega

/-- **The room suffices.**  While no more than 162 bytes have been written for each peer so far,
the loop sends the first peers with an address, up to eight. -/
lemma sendPeers_eq (qs : List Peer) {npeers pos : ℕ} (out : Bytes) (hn : npeers ≤ acHelloPeerMax)
    (hpos : pos ≤ 171 + 162 * npeers) :
    sendPeers qs npeers pos out =
      (npeers + ((qs.filter Peer.advertised).take (acHelloPeerMax - npeers)).length,
        out ++ ((qs.filter Peer.advertised).take (acHelloPeerMax - npeers)).flatMap peerField) := by
  induction qs generalizing npeers pos out with
  | nil => simp [sendPeers]
  | cons q qs ih =>
    rw [sendPeers]
    by_cases hfull : acHelloPeerMax ≤ npeers
    · rw [if_pos hfull, Nat.sub_eq_zero_of_le hfull]
      simp
    rw [if_neg hfull]
    by_cases hskip : q.advertised = true
    · -- the peer is sent
      have hsplit := hskip
      simp only [Peer.advertised, Bool.and_eq_true, decide_eq_true_iff] at hsplit
      obtain ⟨⟨⟨huse, hknown⟩, hhost⟩, hport⟩ := hsplit
      have hlen := q.host.length_lt
      have hroom : ¬ helloBufBytes < pos + 32 + 2 + 1 + q.host.bytes.length + 32 := by
        simp only [helloBufBytes, acHelloPeerMax] at hfull ⊢
        omega
      have hrest : acHelloPeerMax - npeers = acHelloPeerMax - (npeers + 1) + 1 := by omega
      rw [if_neg (by simp [huse, hknown]), if_neg (by simp [hhost, hport])]
      dsimp only
      rw [if_neg (by omega), if_neg hroom, ih _ (by omega) (by omega), List.filter_cons,
          if_pos hskip,
        hrest, List.take_succ_cons, List.flatMap_cons, List.length_cons, List.append_assoc]
      congr 1
      omega
    · -- the peer is skipped by one of the two tests
      have hrec := ih out hn hpos
      rw [List.filter_cons, if_neg hskip, ← hrec]
      by_cases hunknown : (!q.inUse || !q.peerIdKnown) = true
      · rw [if_pos hunknown]
      · have haddress : q.host.bytes = [] ∨ q.port = 0 := by
          by_contra hboth
          rw [not_or] at hboth
          refine hskip ?_
          rw [Bool.or_eq_true, Bool.not_eq_true', Bool.not_eq_true', not_or, Bool.not_eq_false,
            Bool.not_eq_false] at hunknown
          simp only [Peer.advertised, hunknown.1, hunknown.2, Bool.and_self, Bool.true_and,
            Bool.and_eq_true, decide_eq_true_iff]
          exact hboth
        rw [if_neg hunknown, if_pos haddress]

/-- The payload of `send_hello`. -/
lemma sendHello_eq (cfg : NetConfig) (peers : PeerTable) :
    sendHello cfg peers = helloHead cfg ++
      UInt8.ofNat (advertisedPeers peers).length :: (advertisedPeers peers).flatMap peerField := by
  have hlen := cfg.externalHost.length_lt
  have hpos : (helloHead cfg).length + 1 ≤ 171 + 162 * 0 := by
    rw [length_helloHead]
    omega
  rw [sendHello, sendPeers_eq _ [] (Nat.zero_le _) hpos, Nat.sub_zero, Nat.zero_add,
    List.nil_append,
    advertisedPeers]

/-! ### Reading back -/

/-- A port is read back from its bytes. -/
lemma exists_acBe16 (v : UInt16) : ∃ hi lo, acBe16 v = [hi, lo] ∧ rdPort hi lo = v := by
  refine ⟨UInt8.ofNat (v.toNat / 256), UInt8.ofNat v.toNat, by simp [acBe16, beEncode], ?_⟩
  have hv := v.toNat_lt
  rw [rdPort, ← UInt16.toNat_inj, UInt16.toNat_or, UInt16.toNat_shiftLeft]
  have hhi : (UInt8.ofNat (v.toNat / 256)).toUInt16.toNat = v.toNat / 256 := by
    rw [UInt8.toNat_toUInt16, UInt8.toNat_ofNat']
    omega
  have hlo : (UInt8.ofNat v.toNat).toUInt16.toNat = v.toNat % 256 := by
    rw [UInt8.toNat_toUInt16, UInt8.toNat_ofNat']
  have hshift : UInt16.toNat 8 % 16 = 8 := rfl
  rw [hhi, hlo, hshift, Nat.shiftLeft_eq, Nat.mod_eq_of_lt (by omega), Nat.mul_comm,
    ← Nat.two_pow_add_eq_or_of_lt (Nat.mod_lt _ (by decide))]
  omega

/-- What is read back for a peer. -/
def Peer.told (q : Peer) : HelloPeer := ⟨q.peerId, q.port, q.host.bytes ++ [0]⟩

/-- The reads from a key, a port and a host name in the middle of a payload. -/
structure RecordAt (buf : Bytes) (pos : ℕ) (pid : Addr) (hi lo hl : UInt8) (host post : Bytes) :
    Prop where
  length_eq : buf.length = pos + 35 + host.length + post.length
  read_pid : readAt buf pos 32 = some pid.bytes
  read_hi : buf[pos + 32]? = some hi
  read_lo : buf[pos + 33]? = some lo
  read_hl : buf[pos + 34]? = some hl
  read_host : readAt buf (pos + 35) host.length = some host

lemma recordAt {buf pre post host : Bytes} {pid : Addr} {hi lo hl : UInt8} {pos : ℕ}
    (hbuf : buf = pre ++ (pid.bytes ++ hi :: lo :: hl :: (host ++ post)))
    (hpos : pos = pre.length) :
    RecordAt buf pos pid hi lo hl host post where
  length_eq := by
    rw [hbuf]
    simp only [List.length_append, List.length_cons, ByteArr.length_bytes]
    omega
  read_pid := by
    rw [hbuf]
    exact readAt_append hpos (ByteArr.length_bytes pid).symm
  read_hi := by
    rw [hbuf, ← List.append_assoc]
    exact getElem?_append_cons (by simp [hpos])
  read_lo := by
    rw [hbuf, ← List.append_assoc, List.append_cons]
    exact getElem?_append_cons (by simp [hpos])
  read_hl := by
    rw [hbuf, ← List.append_assoc, List.append_cons, List.append_cons]
    exact getElem?_append_cons (by simp [hpos])
  read_host := by
    rw [hbuf, ← List.append_assoc, List.append_cons, List.append_cons, List.append_cons]
    exact readAt_append (by simp [hpos]) rfl

lemma toNat_ofNat_length {host : Bytes} (h : host.length < 128) :
    (UInt8.ofNat host.length).toNat = host.length :=
  UInt8.toNat_ofNat_of_lt' (show host.length < 256 by omega)

/-- The loop over the list of peers reads back what was sent. -/
lemma parsePeers_peerFields {buf : Bytes} {gossipCap : ℕ} (qs : List Peer) {pre : Bytes}
    (kept : List HelloPeer) (hbuf : buf = pre ++ qs.flatMap peerField)
    (hcap : kept.length + qs.length ≤ gossipCap) :
    parsePeers buf gossipCap qs.length pre.length kept = some (kept ++ qs.map Peer.told) := by
  induction qs generalizing pre kept with
  | nil => simp [parsePeers]
  | cons q qs ih =>
    obtain ⟨hi, lo, hport, hrd⟩ := exists_acBe16 q.port
    have hlt := q.host.length_lt
    have hphl := toNat_ofNat_length hlt
    have hrec : RecordAt buf pre.length q.peerId hi lo (UInt8.ofNat q.host.bytes.length)
        q.host.bytes (qs.flatMap peerField) := by
      refine recordAt ?_ rfl
      rw [hbuf, List.flatMap_cons, peerField, hostField, hport]
      simp
    have hcut : (if q.host.bytes.length < 127 then q.host.bytes.length else 127) =
        q.host.bytes.length := by
      split_ifs <;> omega
    have hlen := hrec.length_eq
    rw [List.length_cons] at hcap ⊢
    rw [parsePeers, if_neg (by omega), hrec.read_pid, hrec.read_hi, hrec.read_lo, hrec.read_hl]
    simp only [Option.bind_eq_bind, Option.bind_some]
    rw [hphl, if_neg (by omega), if_pos (by omega), hcut, hrec.read_host, Option.bind_some,
      ByteArr.ofBytes_bytes, hrd]
    have hpos : pre.length + 35 + q.host.bytes.length = (pre ++ peerField q).length := by
      rw [List.length_append, length_peerField]
      omega
    rw [hpos, ih _ (by rw [hbuf]; simp) (by simp; omega), List.map_cons, List.append_assoc]
    rfl

/-- `parse_hello` reads the head back, and goes on with the list of peers. -/
lemma parseHello_head {buf rest : Bytes} (cfg : NetConfig) {gossipCap : ℕ} (hcap : gossipCap ≠ 0)
    {np : UInt8} (hnp : np.toNat ≤ acHelloPeerMax)
    (hbuf : buf = helloHead cfg ++ np :: rest) :
    parseHello buf 128 gossipCap =
      (parsePeers buf gossipCap np.toNat ((helloHead cfg).length + 1) []).map fun gossip =>
        some ⟨cfg.chainId, cfg.keypair.pk, cfg.listenPort, cfg.externalHost.bytes ++ [0],
        gossip⟩ := by
  obtain ⟨hi, lo, hport, hrd⟩ := exists_acBe16 cfg.listenPort
  have hlt := cfg.externalHost.length_lt
  have hhl := toNat_ofNat_length hlt
  have hsplit : buf = acBe64 cfg.chainId ++ (cfg.keypair.pk.bytes ++ hi :: lo ::
      UInt8.ofNat cfg.externalHost.bytes.length :: (cfg.externalHost.bytes ++ np :: rest)) := by
    rw [hbuf, helloHead, hostField, take_externalHost, hport]
    simp
  have hrec := recordAt hsplit (length_acBe64 cfg.chainId).symm
  have hchain : readAt buf 0 8 = some (acBe64 cfg.chainId) := by
    rw [hsplit, ← List.nil_append (acBe64 cfg.chainId ++ _)]
    exact readAt_append rfl (length_acBe64 _).symm
  have hcopy : (if (UInt8.ofNat cfg.externalHost.bytes.length).toUInt64 < (128 : UInt64) - 1 then
      (UInt8.ofNat cfg.externalHost.bytes.length).toUInt64 else (128 : UInt64) - 1).toNat =
        cfg.externalHost.bytes.length := by
    have h127 : ((128 : UInt64) - 1).toNat = 127 := rfl
    have hword : (UInt8.ofNat cfg.externalHost.bytes.length).toUInt64.toNat =
        cfg.externalHost.bytes.length := by
      rw [UInt8.toNat_toUInt64, hhl]
    split_ifs with hless
    · exact hword
    · rw [UInt64.lt_iff_toNat_lt, hword, h127] at hless
      rw [h127]
      omega
  have hlen := hrec.length_eq
  have hnpAt : buf[43 + cfg.externalHost.bytes.length]? = some np := by
    rw [hbuf]
    exact getElem?_append_cons (length_helloHead cfg).symm
  have hrd64 : acRd64 (acBe64 cfg.chainId) = cfg.chainId := by
    have h := acRd64_acBe64 cfg.chainId []
    rwa [List.append_nil] at h
  rw [List.length_cons] at hlen
  rw [parseHello, if_neg (by omega), hchain, hrec.read_pid, hrec.read_hi, hrec.read_lo,
    hrec.read_hl]
  simp only [Option.bind_eq_bind, Option.bind_some]
  rw [hhl, if_neg (by omega), hcopy, hrec.read_host, Option.bind_some, if_neg (by omega), hnpAt,
    Option.bind_some, if_neg (by omega), length_helloHead, hrd64, ByteArr.ofBytes_bytes, hrd]
  cases parsePeers buf gossipCap np.toNat (43 + cfg.externalHost.bytes.length + 1) [] with
  | none => rfl
  | some gossip => rfl

/-- What was sent is read back, in the buffers of the reader. -/
lemma parseHello_sendHello (cfg : NetConfig) (peers : PeerTable) :
    parseHello (sendHello cfg peers) 128 acHelloPeerMax =
      some (some ⟨cfg.chainId, cfg.keypair.pk, cfg.listenPort, cfg.externalHost.bytes ++ [0],
        (advertisedPeers peers).map Peer.told⟩) := by
  have hle : (advertisedPeers peers).length ≤ acHelloPeerMax := List.length_take_le _ _
  have h8 : acHelloPeerMax = 8 := rfl
  have hnp : (UInt8.ofNat (advertisedPeers peers).length).toNat = (advertisedPeers peers).length :=
    UInt8.toNat_ofNat_of_lt' (show (advertisedPeers peers).length < 256 by omega)
  have hsent : sendHello cfg peers = (helloHead cfg ++
      [UInt8.ofNat (advertisedPeers peers).length]) ++
      (advertisedPeers peers).flatMap peerField := by
    rw [sendHello_eq]
    simp
  have hpeers := parsePeers_peerFields (advertisedPeers peers) [] hsent
    ((Nat.zero_add _).trans_le hle)
  rw [List.length_append, List.length_singleton] at hpeers
  rw [parseHello_head cfg (by decide) (by omega) (sendHello_eq cfg peers), hnp, hpeers]
  rfl

/-! ### Bytes that nobody has checked -/

/-- The loop over the list of peers stays inside the payload, whatever the bytes and the position
say, and keeps within its capacities. -/
lemma parsePeers_safe (buf : Bytes) (gossipCap n pos : ℕ) (kept : List HelloPeer)
    (hkept : kept.length ≤ gossipCap) (hhosts : ∀ g ∈ kept, g.host.length ≤ 128) :
    ∃ gossip, parsePeers buf gossipCap n pos kept = some gossip ∧ gossip.length ≤ gossipCap ∧
      ∀ g ∈ gossip, g.host.length ≤ 128 := by
  induction n generalizing pos kept with
  | zero => exact ⟨kept, rfl, hkept, hhosts⟩
  | succ n ih =>
    rw [parsePeers]
    by_cases hshort : buf.length < pos + 32 + 2 + 1
    · rw [if_pos hshort]
      exact ⟨kept, rfl, hkept, hhosts⟩
    have hin : ∀ k < 35, ∃ x, buf[pos + k]? = some x := fun k hk =>
      ⟨_, List.getElem?_eq_getElem (by omega)⟩
    obtain ⟨pid, hpid, -⟩ := readAt_of_le buf pos 32 (by omega)
    obtain ⟨hi, hhi⟩ := hin 32 (by decide)
    obtain ⟨lo, hlo⟩ := hin 33 (by decide)
    obtain ⟨phl, hphl⟩ := hin 34 (by decide)
    rw [if_neg hshort, hpid, hhi, hlo, hphl]
    simp only [Option.bind_eq_bind, Option.bind_some]
    by_cases hcut : buf.length < pos + 35 + phl.toNat
    · rw [if_pos hcut]
      exact ⟨kept, rfl, hkept, hhosts⟩
    rw [if_neg hcut]
    by_cases hroom : kept.length < gossipCap
    · obtain ⟨host, hhost, hlen⟩ := readAt_of_le buf (pos + 35)
        (if phl.toNat < 127 then phl.toNat else 127) (by split_ifs <;> omega)
      rw [if_pos hroom, hhost, Option.bind_some]
      refine ih _ _ ?_ ?_
      · rw [List.length_append, List.length_singleton]
        omega
      · intro g hg
        rcases List.mem_append.mp hg with hg | hg
        · exact hhosts g hg
        · rw [List.mem_singleton.mp hg, List.length_append, List.length_singleton, hlen]
          split_ifs <;> omega
    · rw [if_neg hroom]
      exact ih _ _ hkept hhosts

/-- The bytes that are copied to `host` fit before the NUL. -/
lemma hostCopy_lt {hostCap : UInt64} (h : hostCap ≠ 0) (hl : UInt8) :
    (if hl.toUInt64 < hostCap - 1 then hl.toUInt64 else hostCap - 1).toNat < hostCap.toNat := by
  have hpos : 0 < hostCap.toNat := by
    rw [Nat.pos_iff_ne_zero]
    exact fun h0 => h (UInt64.toNat_inj.mp h0)
  have hsub : (hostCap - 1).toNat = hostCap.toNat - 1 :=
    UInt64.toNat_sub_of_le _ _ (UInt64.le_iff_toNat_le.mpr hpos)
  split_ifs with hless
  · rw [UInt64.lt_iff_toNat_lt] at hless
    omega
  · omega

lemma hostCopy_le (hostCap : UInt64) (hl : UInt8) :
    (if hl.toUInt64 < hostCap - 1 then hl.toUInt64 else hostCap - 1).toNat ≤ hl.toNat := by
  have hword : hl.toUInt64.toNat = hl.toNat := UInt8.toNat_toUInt64 hl
  split_ifs with hless
  · exact hword.le
  · rw [UInt64.lt_iff_toNat_lt, hword] at hless
    omega

/-- The fields before the host name can be read. -/
lemma fixedFields_of_le {buf : Bytes} (h : 43 ≤ buf.length) :
    ∃ chainId peerId hi lo, readAt buf 0 8 = some chainId ∧ readAt buf 8 32 = some peerId ∧
      buf[40]? = some hi ∧ buf[41]? = some lo := by
  obtain ⟨chainId, hchain, -⟩ := readAt_of_le buf 0 8 (by omega)
  obtain ⟨peerId, hpeer, -⟩ := readAt_of_le buf 8 32 (by omega)
  exact ⟨chainId, peerId, _, _, hchain, hpeer, List.getElem?_eq_getElem (by omega),
    List.getElem?_eq_getElem (by omega)⟩

/-- A payload with all fixed fields and the host name is accepted, and it is only read on when
there is more of it. -/
lemma parseHello_of_le {buf : Bytes} {hl : UInt8} (hhl : buf[42]? = some hl)
    (hlen : 43 + hl.toNat ≤ buf.length) (hostCap : UInt64) (gossipCap : ℕ) :
    ∃ hello : Hello, (hostCap ≠ 0 → hello.host.length ≤ hostCap.toNat) ∧ hello.gossip = [] ∧
      parseHello buf hostCap gossipCap =
        if buf.length ≤ 43 + hl.toNat ∨ gossipCap = 0 then some (some hello)
        else buf[43 + hl.toNat]?.bind fun np =>
          (parsePeers buf gossipCap (if acHelloPeerMax < np.toNat then acHelloPeerMax else np.toNat)
            (43 + hl.toNat + 1) []).bind fun gossip =>
            some (some { hello with gossip := gossip }) := by
  have hcopy := hostCopy_le hostCap hl
  have hfixed : 43 ≤ buf.length := by omega
  obtain ⟨chainId, peerId, hi, lo, hchain, hpeer, hhi, hlo⟩ := fixedFields_of_le hfixed
  obtain ⟨host, hhost, hwritten⟩ := readAt_of_le buf 43
    (if hl.toUInt64 < hostCap - 1 then hl.toUInt64 else hostCap - 1).toNat (by omega)
  refine ⟨⟨acRd64 chainId, ByteArr.ofBytes 32 peerId, rdPort hi lo, host ++ [0], []⟩, ?_, rfl, ?_⟩
  · intro hcap
    have hfits := hostCopy_lt hcap hl
    dsimp only
    rw [List.length_append, List.length_singleton, hwritten]
    exact hfits
  · rw [parseHello, if_neg (by omega), hchain, hpeer, hhi, hlo, hhl]
    simp only [Option.bind_eq_bind, Option.bind_some]
    rw [if_neg (by omega), hhost, Option.bind_some]

/-- **`parse_hello` never leaves the payload**, and keeps within its capacities when there is
room for the NUL behind the host name. -/
lemma parseHello_safe (buf : Bytes) (hostCap : UInt64) (gossipCap : ℕ) :
    ∃ r, parseHello buf hostCap gossipCap = some r ∧ ∀ hello ∈ r,
      (hostCap ≠ 0 → hello.host.length ≤ hostCap.toNat) ∧ hello.gossip.length ≤ gossipCap ∧
        ∀ g ∈ hello.gossip, g.host.length ≤ 128 := by
  by_cases hshort : buf.length < 8 + 32 + 2 + 1
  · exact ⟨none, if_pos hshort, by simp⟩
  obtain ⟨hl, hhl⟩ : ∃ x, buf[42]? = some x := ⟨_, List.getElem?_eq_getElem (by omega)⟩
  by_cases hcut : buf.length < 43 + hl.toNat
  · refine ⟨none, ?_, by simp⟩
    obtain ⟨chainId, peerId, hi, lo, hchain, hpeer, hhi, hlo⟩ :=
      fixedFields_of_le (not_lt.mp hshort)
    rw [parseHello, if_neg hshort, hchain, hpeer, hhi, hlo, hhl]
    exact if_pos hcut
  obtain ⟨hello, hwrite, hnone, heq⟩ := parseHello_of_le hhl (not_lt.mp hcut) hostCap gossipCap
  rw [heq]
  by_cases hend : buf.length ≤ 43 + hl.toNat ∨ gossipCap = 0
  · rw [if_pos hend]
    refine ⟨some hello, rfl, ?_⟩
    rintro hello ⟨⟩
    exact ⟨hwrite, by simp [hnone], by simp [hnone]⟩
  rw [if_neg hend]
  rw [not_or, not_le] at hend
  obtain ⟨np, hnp⟩ : ∃ np, buf[43 + hl.toNat]? = some np :=
    ⟨_, List.getElem?_eq_getElem hend.1⟩
  obtain ⟨gossip, hgossip, hn, hhosts⟩ := parsePeers_safe buf gossipCap
    (if acHelloPeerMax < np.toNat then acHelloPeerMax else np.toNat) (43 + hl.toNat + 1)
    [] (Nat.zero_le _) (by simp)
  rw [hnp, Option.bind_some, hgossip]
  refine ⟨_, rfl, ?_⟩
  rintro hello ⟨⟩
  exact ⟨hwrite, hn, hhosts⟩

/-- **Round trip and safe parsing of the first message.**  What `send_hello` builds is read back
in the buffers of the reader, with the first eight known peers that have an address.  On every
byte string `parse_hello` has a result without a read outside of it, and writes at most
`gossip_cap` peers and, when there is room for a NUL, at most `host_cap` bytes.  A payload that
ends behind the host name is accepted with an empty list. -/
theorem hello_round_trip_and_safe :
    (∀ (cfg : NetConfig) (peers : PeerTable),
      parseHello (sendHello cfg peers) 128 acHelloPeerMax =
        some (some ⟨cfg.chainId, cfg.keypair.pk, cfg.listenPort, cfg.externalHost.bytes ++ [0],
          (advertisedPeers peers).map Peer.told⟩)) ∧
    (∀ (buf : Bytes) (hostCap : UInt64) (gossipCap : ℕ),
      ∃ r, parseHello buf hostCap gossipCap = some r ∧ ∀ hello ∈ r,
        (hostCap ≠ 0 → hello.host.length ≤ hostCap.toNat) ∧ hello.gossip.length ≤ gossipCap ∧
          ∀ g ∈ hello.gossip, g.host.length ≤ 128) ∧
    ∀ (buf : Bytes) (hostCap : UInt64) (gossipCap : ℕ) (hl : UInt8), buf[42]? = some hl →
      buf.length = 43 + hl.toNat →
        ∃ hello, parseHello buf hostCap gossipCap = some (some hello) ∧ hello.gossip = [] := by
  refine ⟨parseHello_sendHello, parseHello_safe, ?_⟩
  intro buf hostCap gossipCap hl hhl hlen
  obtain ⟨hello, -, hnone, heq⟩ := parseHello_of_le hhl hlen.ge hostCap gossipCap
  refine ⟨hello, ?_, hnone⟩
  rw [heq, if_pos (.inl hlen.le)]

/-- A payload of 43 zero bytes, in the buffers of the reader. -/
theorem hello_zeros_accepted :
    (∃ r, parseHello (List.replicate 43 0) 128 acHelloPeerMax = some r ∧ ∀ hello ∈ r,
      ((128 : UInt64) ≠ 0 → hello.host.length ≤ (128 : UInt64).toNat) ∧
        hello.gossip.length ≤ acHelloPeerMax ∧ ∀ g ∈ hello.gossip, g.host.length ≤ 128) ∧
    ∃ hello, parseHello (List.replicate 43 0) 128 acHelloPeerMax = some (some hello) ∧
      hello.gossip = [] :=
  ⟨hello_round_trip_and_safe.2.1 _ _ _,
    hello_round_trip_and_safe.2.2 _ _ _ 0 (by decide) (by decide)⟩

/-- Without room for the NUL, the difference `host_cap - 1` wraps around and the NUL is written
behind the buffer. -/
theorem hello_without_room :
    ∃ hello, parseHello (List.replicate 43 0) 0 acHelloPeerMax = some (some hello) ∧
      hello.host.length = 1 :=
  ⟨⟨0, ByteArr.ofBytes 32 (List.replicate 32 0), 0, [0], []⟩, by decide +kernel, rfl⟩

end AgentChain
