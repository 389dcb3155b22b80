import AgentChain.Peers
import AgentChain.GapRequests
import AgentChain.Lib.PrefixCode

/-!
# Frames on the wire

`frame_send` writes a header of six bytes, which holds the length, the version and the type, and
then the payload.  `frame_recv` reads them back from a stream that hands over bytes in pieces of
any size: `read_full` asks again until it has the bytes that it needs.

The reader is a machine that takes one such piece at a time.  What it has read is at any time the
frames that it has returned, as `frame_send` writes them, and the part of the next one that has
arrived (`FrameReader.feed_spec`).  This part never holds a whole frame
(`FrameReader.Open.part_incomplete`).  So the frames do not depend on how the stream was cut, and
none is held back (`frame_recv_any_chunks`).
-/

namespace AgentChain

open Trace

/-- The codes of `net.h`. -/
def MsgType.code : MsgType → UInt8
  | .hello => 0x01
  | .headersReq => 0x02
  | .headersRes => 0x03
  | .blockReq => 0x04
  | .blockRes => 0x05
  | .blockAnn => 0x06
  | .txAnn => 0x07
  | .commitVote => 0x08
  | .ping => 0x0B
  | .pong => 0x0C

/-- `AC_FRAME_VERSION` -/
def acFrameVersion : UInt8 := 1

/-- A frame as it stands on the wire, of any type. -/
structure RawFrame where
  type : UInt8
  payload : Bytes
deriving DecidableEq

/-- The frame of a message. -/
def Frame.raw (f : Frame) : RawFrame := ⟨f.type.code, f.payload⟩

/-- What `frame_send` and `peer_enqueue` let pass. -/
def RawFrame.Fits (f : RawFrame) : Prop := f.payload.length ≤ acFrameMaxBytes - 2

/-- The header that `frame_send` writes. -/
def frameHeader (type : UInt8) (len : ℕ) : Bytes :=
  acBe32 (UInt32.ofNat (len + 2)) ++ [acFrameVersion, type]

/-- The bytes of a frame, as `frame_send` writes them. -/
def frameBytes (f : RawFrame) : Bytes := frameHeader f.type f.payload.length ++ f.payload

/-- `frame_send`: the bytes that are written, unless the frame is too long. -/
def frameSend (f : RawFrame) : Option Bytes :=
  if acFrameMaxBytes - 2 < f.payload.length then none else some (frameBytes f)

/-- The checks of `frame_recv` on a header: the type and the length of the payload. -/
def checkFrameHeader (hdr : Bytes) : Option (UInt8 × ℕ) :=
  let total := acRd32 hdr
  if total < 2 ∨ acFrameMaxBytes < total.toNat then none
  else
    match hdr[4]?, hdr[5]? with
    | some version, some type =>
        if version ≠ acFrameVersion then none else some (type, total.toNat - 2)
    | _, _ => none

/-! ### The reader -/

/-- Where `frame_recv` stands. -/
inductive FrameReader where
  /-- It reads the header. -/
  | header (got : Bytes)
  /-- It reads a payload of `plen` bytes. -/
  | payload (type : UInt8) (plen : ℕ) (got : Bytes)
  /-- It has returned NULL. -/
  | closed
deriving DecidableEq

/-- What becomes of a piece. -/
inductive Received where
  /-- More is needed. -/
  | waiting
  /-- A frame is returned. -/
  | frame (f : RawFrame)
  /-- The header is refused. -/
  | malformed
  /-- There is no memory for the payload. -/
  | noMemory
deriving DecidableEq

/-- How many bytes the running `read_full` still asks for. -/
def FrameReader.need : FrameReader → ℕ
  | .header got => 6 - got.length
  | .payload _ plen got => plen - got.length
  | .closed => 0

/-- One return of `ac_sock_recv`; `mallocOk` says whether memory could be had. -/
def FrameReader.feed (mallocOk : Bool) : FrameReader → Bytes → FrameReader × Received
  | .header got, piece =>
      let hdr := got ++ piece
      if hdr.length < 6 then (.header hdr, .waiting)
      else
        match checkFrameHeader hdr with
        | none => (.closed, .malformed)
        | some (type, plen) =>
            if !mallocOk then (.closed, .noMemory)
            else if plen = 0 then (.header [], .frame ⟨type, []⟩)
            else (.payload type plen [], .waiting)
  | .payload type plen got, piece =>
      let buf := got ++ piece
      if buf.length < plen then (.payload type plen buf, .waiting)
      else (.header [], .frame ⟨type, buf⟩)
  | .closed, _ => (.closed, .waiting)

/-- A reader that has not returned NULL, between two pieces. -/
def FrameReader.Open : FrameReader → Prop
  | .header got => got.length < 6
  | .payload _ plen got => got.length < plen ∧ plen ≤ acFrameMaxBytes - 2
  | .closed => False

/-- The bytes of the frame that is being read. -/
def FrameReader.part : FrameReader → Bytes
  | .header got => got
  | .payload type plen got => frameHeader type plen ++ got
  | .closed => []

/-- The piece fits what was asked for. -/
def FrameReader.Takes (r : FrameReader) (piece : Bytes) : Prop :=
  0 < piece.length ∧ piece.length ≤ r.need

/-! ### Headers -/

section Headers

variable {type : UInt8} {len : ℕ} {hdr : Bytes} {f : RawFrame}

lemma length_acBe32 (v : UInt32) : (acBe32 v).length = 4 := length_beEncode 4 _

lemma length_frameHeader (type : UInt8) (len : ℕ) : (frameHeader type len).length = 6 := by
  rw [frameHeader, List.length_append, length_acBe32]
  rfl

lemma acRd32_append (v : UInt32) (rest : Bytes) : acRd32 (acBe32 v ++ rest) = v := by
  have htake : (acBe32 v ++ rest).take 4 = acBe32 v := List.take_left' (length_acBe32 v)
  rw [acRd32, htake, acBe32, beDecode_beEncode v.toNat_lt, UInt32.ofNat_toNat]

lemma toNat_total (h : len ≤ acFrameMaxBytes - 2) : (UInt32.ofNat (len + 2)).toNat = len + 2 := by
  simp only [acFrameMaxBytes] at h
  exact UInt32.toNat_ofNat_of_lt' (show len + 2 < 2 ^ 32 by omega)

/-- The header of a frame that may be sent is taken. -/
lemma checkFrameHeader_frameHeader (type : UInt8) (h : len ≤ acFrameMaxBytes - 2) :
    checkFrameHeader (frameHeader type len) = some (type, len) := by
  have htotal : acRd32 (frameHeader type len) = UInt32.ofNat (len + 2) := acRd32_append _ _
  have hlen := toNat_total h
  have hpass : ¬ (UInt32.ofNat (len + 2) < 2 ∨
      acFrameMaxBytes < (UInt32.ofNat (len + 2)).toNat) := by
    rw [UInt32.lt_iff_toNat_lt, hlen, show (2 : UInt32).toNat = 2 from rfl]
    simp only [acFrameMaxBytes] at h ⊢
    omega
  have hversion : (frameHeader type len)[4]? = some acFrameVersion := by
    rw [frameHeader, List.getElem?_append_right (by rw [length_acBe32]), length_acBe32]
    rfl
  have htype : (frameHeader type len)[5]? = some type := by
    rw [frameHeader, List.getElem?_append_right (by rw [length_acBe32]; omega), length_acBe32]
    rfl
  rw [checkFrameHeader, htotal, if_neg hpass, hversion, htype]
  dsimp only
  rw [if_neg (by simp), hlen, Nat.add_sub_cancel]

/-- A header that is taken is one that `frame_send` writes. -/
lemma checkFrameHeader_inv (hlen : hdr.length = 6) {plen : ℕ}
    (h : checkFrameHeader hdr = some (type, plen)) :
    hdr = frameHeader type plen ∧ plen ≤ acFrameMaxBytes - 2 := by
  obtain ⟨a, b, c, d, version, type', rfl⟩ : ∃ a b c d e f, hdr = [a, b, c, d, e, f] := by
    rcases hdr with _ | ⟨a, _ | ⟨b, _ | ⟨c, _ | ⟨d, _ | ⟨e, _ | ⟨f, _ | ⟨g, l⟩⟩⟩⟩⟩⟩⟩
    all_goals first
      | exact ⟨_, _, _, _, _, _, rfl⟩
      | (simp only [List.length_cons, List.length_nil] at hlen; omega)
  rw [checkFrameHeader] at h
  dsimp only [List.getElem?_cons_succ, List.getElem?_cons_zero] at h
  split_ifs at h with hrange hversion
  rw [not_or, UInt32.not_lt, UInt32.le_iff_toNat_le, not_lt,
    show (2 : UInt32).toNat = 2 from rfl] at hrange
  rw [Option.some.injEq, Prod.mk.injEq] at h
  obtain ⟨rfl, rfl⟩ := h
  rw [not_not] at hversion
  have hword : acBe32 (acRd32 [a, b, c, d, version, type']) = [a, b, c, d] := by
    have hlt : beDecode [a, b, c, d] < 2 ^ 32 :=
      (beDecode_lt [a, b, c, d]).trans_eq (by rw [show [a, b, c, d].length = 4 from rfl]; norm_num)
    show beEncode 4 (UInt32.ofNat (beDecode [a, b, c, d])).toNat = [a, b, c, d]
    rw [UInt32.toNat_ofNat_of_lt' hlt]
    exact beEncode_beDecode [a, b, c, d]
  refine ⟨?_, by omega⟩
  rw [frameHeader, Nat.sub_add_cancel hrange.1, UInt32.ofNat_toNat, hword, hversion]
  rfl

end Headers

/-! ### Codes -/

/-- The codes of the frames that may be sent are prefix-free. -/
lemma frameBytes_prefixFree : PrefixFreeOn {f | f.Fits} frameBytes where
  nonempty f _ h := by
    have hlen := congrArg List.length (List.append_eq_nil_iff.mp h).1
    rw [length_frameHeader] at hlen
    cases hlen
  separates f hf g hg h := by
    obtain ⟨rest, hrest⟩ := h
    rw [frameBytes, frameBytes, List.append_assoc] at hrest
    obtain ⟨hheader, hpayload⟩ := List.append_inj hrest
      ((length_frameHeader ..).trans (length_frameHeader ..).symm)
    have hcheck := congrArg checkFrameHeader hheader
    rw [checkFrameHeader_frameHeader _ hf, checkFrameHeader_frameHeader _ hg, Option.some.injEq,
      Prod.mk.injEq] at hcheck
    obtain ⟨htype, hlen⟩ := hcheck
    have hwhole : f.payload = g.payload :=
      (List.append_inj (hpayload.trans (List.append_nil _).symm) hlen).1
    cases f
    cases g
    cases htype
    cases hwhole
    rfl

/-- The part of a frame that is being read is shorter than any frame that it may become. -/
lemma FrameReader.Open.part_incomplete {r : FrameReader} (h : r.Open) {f : RawFrame}
    (hf : f.Fits) : ¬ frameBytes f <+: r.part := by
  rintro ⟨rest, hrest⟩
  have hlen := congrArg List.length hrest
  rw [frameBytes, List.length_append, List.length_append, length_frameHeader] at hlen
  cases r with
  | closed => exact h.elim
  | header got =>
    simp only [FrameReader.Open, FrameReader.part] at h hlen
    omega
  | payload type plen got =>
    obtain ⟨hlt, hplen⟩ := h
    rw [frameBytes, FrameReader.part, List.append_assoc] at hrest
    obtain ⟨hheader, -⟩ := List.append_inj hrest
      ((length_frameHeader ..).trans (length_frameHeader ..).symm)
    -- the header names the length of the payload
    have hcheck := congrArg checkFrameHeader hheader
    rw [checkFrameHeader_frameHeader _ hf, checkFrameHeader_frameHeader _ hplen,
      Option.some.injEq, Prod.mk.injEq] at hcheck
    rw [FrameReader.part, List.length_append, length_frameHeader] at hlen
    omega

/-! ### One piece -/

section Feed

variable {r : FrameReader} {piece : Bytes}

/-- What one piece does to a reader. -/
inductive Fed (mallocOk : Bool) (r : FrameReader) (piece : Bytes) : FrameReader × Received → Prop
  | waiting (r' : FrameReader) (hopen : r'.Open) (hpart : r'.part = r.part ++ piece) :
      Fed mallocOk r piece (r', .waiting)
  | frame (f : RawFrame) (hfits : f.Fits) (hbytes : frameBytes f = r.part ++ piece) :
      Fed mallocOk r piece (.header [], .frame f)
  | malformed (hlen : (r.part ++ piece).length = 6)
      (hcheck : checkFrameHeader (r.part ++ piece) = none) :
      Fed mallocOk r piece (.closed, .malformed)
  | noMemory (hmem : mallocOk = false) : Fed mallocOk r piece (.closed, .noMemory)

/-- **The reader keeps what it reads.**  The bytes of the frame that is being read grow by the
piece, or the frame is returned and they are its bytes, or the header is refused. -/
theorem FrameReader.feed_spec (mallocOk : Bool) (hopen : r.Open) (htakes : r.Takes piece) :
    Fed mallocOk r piece (r.feed mallocOk piece) := by
  obtain ⟨hpos, hneed⟩ := htakes
  cases r with
  | closed => exact hopen.elim
  | header got =>
    simp only [FrameReader.Open, FrameReader.need] at hopen hneed
    rw [FrameReader.feed]
    by_cases hshort : (got ++ piece).length < 6
    · rw [if_pos hshort]
      exact .waiting _ hshort rfl
    · have hlen : (got ++ piece).length = 6 := by
        rw [List.length_append] at hshort ⊢
        omega
      rw [if_neg hshort]
      cases hcheck : checkFrameHeader (got ++ piece) with
      | none => exact .malformed hlen hcheck
      | some x =>
        obtain ⟨type, plen⟩ := x
        obtain ⟨hheader, hplen⟩ := checkFrameHeader_inv hlen hcheck
        dsimp only
        split_ifs with hmem hzero
        · exact .noMemory (by simpa using hmem)
        · refine .frame _ (Nat.zero_le _) ?_
          rw [frameBytes, List.append_nil, List.length_nil, ← hzero]
          exact hheader.symm
        · refine .waiting _ ⟨Nat.pos_of_ne_zero hzero, hplen⟩ ?_
          show frameHeader type plen ++ [] = got ++ piece
          rw [List.append_nil, hheader]
  | payload type plen got =>
    obtain ⟨hlt, hplen⟩ := hopen
    simp only [FrameReader.need] at hneed
    rw [FrameReader.feed]
    by_cases hshort : (got ++ piece).length < plen
    · rw [if_pos hshort]
      refine .waiting _ ⟨hshort, hplen⟩ ?_
      rw [FrameReader.part, FrameReader.part, List.append_assoc]
    · have hlen : (got ++ piece).length = plen := by
        rw [List.length_append] at hshort ⊢
        omega
      rw [if_neg hshort]
      refine .frame _ (hlen.trans_le hplen) ?_
      rw [frameBytes, hlen, FrameReader.part, List.append_assoc]

end Feed

/-- The header at the start of frames that may be sent is not refused. -/
lemma checkFrameHeader_of_prefix {fs : List RawFrame} (hfits : ∀ f ∈ fs, f.Fits) {hdr : Bytes}
    (hlen : hdr.length = 6) (h : hdr <+: fs.flatMap frameBytes) : checkFrameHeader hdr ≠ none := by
  cases fs with
  | nil =>
    rw [List.flatMap_nil, List.prefix_nil] at h
    rw [h] at hlen
    cases hlen
  | cons f fs =>
    obtain ⟨rest, hrest⟩ := h
    rw [List.flatMap_cons, frameBytes, List.append_assoc] at hrest
    obtain ⟨rfl, -⟩ := List.append_inj hrest (hlen.trans (length_frameHeader ..).symm)
    rw [checkFrameHeader_frameHeader _ (hfits f List.mem_cons_self)]
    exact Option.some_ne_none _

/-! ### Whole streams -/

/-- A return of `ac_sock_recv`: the piece, and what becomes of it. -/
abbrev Recv := Bytes × Received

/-- The reader takes a piece. -/
inductive FrameReader.Step : FrameReader → List Recv → FrameReader → Prop
  | fed (mallocOk : Bool) (r : FrameReader) (piece : Bytes) (htakes : r.Takes piece) :
      FrameReader.Step r [(piece, (r.feed mallocOk piece).2)] (r.feed mallocOk piece).1

/-- All bytes that were read. -/
def bytesRead (es : List Recv) : Bytes := es.flatMap Prod.fst

/-- The frame that is returned with a piece. -/
def Received.frame? : Received → Option RawFrame
  | .frame f => some f
  | _ => none

/-- All frames that were returned. -/
def framesRead (es : List Recv) : List RawFrame := es.filterMap fun e => e.2.frame?

lemma bytesRead_append (es : List Recv) (e : Recv) :
    bytesRead (es ++ [e]) = bytesRead es ++ e.1 := by
  rw [bytesRead, List.flatMap_append, List.flatMap_singleton]
  rfl

lemma framesRead_append (es : List Recv) (e : Recv) :
    framesRead (es ++ [e]) = framesRead es ++ e.2.frame?.toList := by
  rw [framesRead, List.filterMap_append]
  rfl

/-- What the pieces of a run and the reader have in common. -/
structure ReadSoFar (es : List Recv) (r : FrameReader) : Prop where
  fits : ∀ f ∈ framesRead es, f.Fits
  returned : (framesRead es).flatMap frameBytes <+: bytesRead es
  reading : r ≠ .closed → r.Open ∧ bytesRead es = (framesRead es).flatMap frameBytes ++ r.part
  refused : ∀ e ∈ es, e.2 = .malformed → r = .closed ∧ ∃ hdr, hdr.length = 6 ∧
    checkFrameHeader hdr = none ∧ bytesRead es = (framesRead es).flatMap frameBytes ++ hdr
  closed : r = .closed → ∃ e ∈ es, e.2 = .malformed ∨ e.2 = .noMemory

section ReadSoFar

variable {es : List Recv} {r r' : FrameReader} {piece : Bytes} {res : Received}

/-- A piece that returns no frame. -/
lemma ReadSoFar.unframed (h : ReadSoFar es r) (hr : r ≠ .closed) (hnone : res.frame? = none)
    (hreading : r' ≠ .closed → r'.Open ∧ r'.part = r.part ++ piece)
    (hrefused : res = .malformed → r' = .closed ∧
      (r.part ++ piece).length = 6 ∧ checkFrameHeader (r.part ++ piece) = none)
    (hclosed : r' = .closed → res = .malformed ∨ res = .noMemory) :
    ReadSoFar (es ++ [(piece, res)]) r' := by
  have hframes : framesRead (es ++ [(piece, res)]) = framesRead es := by
    rw [framesRead_append, hnone]
    exact List.append_nil _
  have hall : bytesRead (es ++ [(piece, res)]) =
      (framesRead es).flatMap frameBytes ++ (r.part ++ piece) := by
    rw [bytesRead_append, (h.reading hr).2, List.append_assoc]
  refine ⟨by rw [hframes]; exact h.fits, ?_, fun hr' => ?_, fun e he hmal => ?_,
    fun hr' => ⟨_, List.mem_append_right _ (List.mem_singleton_self _), hclosed hr'⟩⟩
  · rw [hframes, hall]
    exact List.prefix_append ..
  · rw [hframes, hall, (hreading hr').2]
    exact ⟨(hreading hr').1, rfl⟩
  · rw [hframes, hall]
    rcases List.mem_append.mp he with hold | hnew
    · exact absurd (h.refused e hold hmal).1 hr
    · obtain rfl := List.mem_singleton.mp hnew
      obtain ⟨hclosed, hlen, hcheck⟩ := hrefused hmal
      exact ⟨hclosed, _, hlen, hcheck, rfl⟩

/-- A piece that returns a frame. -/
lemma ReadSoFar.framed (h : ReadSoFar es r) (hr : r ≠ .closed) {f : RawFrame} (hfits : f.Fits)
    (hbytes : frameBytes f = r.part ++ piece) :
    ReadSoFar (es ++ [(piece, .frame f)]) (.header []) := by
  have hframes : framesRead (es ++ [(piece, .frame f)]) = framesRead es ++ [f] :=
    framesRead_append es _
  have hall : bytesRead (es ++ [(piece, .frame f)]) =
      (framesRead es ++ [f]).flatMap frameBytes := by
    rw [bytesRead_append, (h.reading hr).2, List.flatMap_append, List.flatMap_singleton, hbytes,
      List.append_assoc]
  refine ⟨?_, ?_, fun _ => ?_, fun e he hmal => ?_, fun hclosed => FrameReader.noConfusion hclosed⟩
  · rw [hframes]
    intro g hg
    rcases List.mem_append.mp hg with hold | hnew
    · exact h.fits g hold
    · rwa [List.mem_singleton.mp hnew]
  · rw [hframes, hall]
  · rw [hframes, hall]
    exact ⟨Nat.zero_lt_succ 5, (List.append_nil _).symm⟩
  · rcases List.mem_append.mp he with hold | hnew
    · exact absurd (h.refused e hold hmal).1 hr
    · rw [List.mem_singleton.mp hnew] at hmal
      cases hmal

/-- Every piece keeps this. -/
lemma ReadSoFar.step (h : ReadSoFar es r) {new : List Recv} (hs : FrameReader.Step r new r') :
    ReadSoFar (es ++ new) r' := by
  cases hs with
  | fed mallocOk _ piece htakes =>
    have hr : r ≠ .closed := by
      rintro rfl
      exact absurd (htakes.1.trans_le htakes.2) (lt_irrefl _)
    have hfed := FrameReader.feed_spec mallocOk (h.reading hr).1 htakes
    generalize r.feed mallocOk piece = out at hfed
    cases hfed with
    | waiting r' hopen hpart =>
      refine h.unframed hr rfl (fun _ => ⟨hopen, hpart⟩) (by simp) ?_
      rintro rfl
      exact hopen.elim
    | frame f hfits hbytes => exact h.framed hr hfits hbytes
    | malformed hlen hcheck =>
      exact h.unframed hr rfl (by simp) (fun _ => ⟨rfl, hlen, hcheck⟩) fun _ => Or.inl rfl
    | noMemory => exact h.unframed hr rfl (by simp) (by simp) fun _ => Or.inr rfl

lemma readSoFar_of_run (h : Run FrameReader.Step (.header []) es r) : ReadSoFar es r := by
  refine h.invariant (I := ReadSoFar) ?_ fun fs t new v hI hs => hI.step hs
  exact ⟨by simp [framesRead], List.prefix_refl _, fun _ => ⟨Nat.zero_lt_succ 5, rfl⟩, by simp,
    fun hclosed => FrameReader.noConfusion hclosed⟩

/-- The frames of a stream that may be sent, as far as they have come. -/
lemma ReadSoFar.of_stream (h : ReadSoFar es r) {fs : List RawFrame} (hfs : ∀ f ∈ fs, f.Fits)
    (hpre : bytesRead es <+: fs.flatMap frameBytes) :
    framesRead es <+: fs ∧ ∀ e ∈ es, e.2 ≠ .malformed := by
  refine ⟨?_, fun e he hmal => ?_⟩
  · obtain ⟨rest, rfl, -⟩ := frameBytes_prefixFree.split h.fits hfs
      (by rw [List.append_nil]; exact h.returned.trans hpre)
    exact List.prefix_append ..
  · obtain ⟨-, hdr, hlen, hcheck, hbytes⟩ := h.refused e he hmal
    rw [hbytes] at hpre
    obtain ⟨rest, rfl, hrest⟩ := frameBytes_prefixFree.split h.fits hfs hpre
    exact checkFrameHeader_of_prefix (fun f hf => hfs f (List.mem_append_right _ hf)) hlen hrest
      hcheck

/-- When the whole stream was read, all of its frames were returned. -/
lemma ReadSoFar.all_frames (h : ReadSoFar es r) (hr : r ≠ .closed) {fs : List RawFrame}
    (hfs : ∀ f ∈ fs, f.Fits) (hall : bytesRead es = fs.flatMap frameBytes) :
    framesRead es = fs := by
  obtain ⟨⟨rest, rfl⟩, -⟩ := h.of_stream hfs (hall ▸ List.prefix_refl _)
  obtain ⟨hopen, hbytes⟩ := h.reading hr
  rw [hall, List.flatMap_append, List.append_cancel_left_eq] at hbytes
  cases rest with
  | nil => exact (List.append_nil _).symm
  | cons f rest =>
    refine absurd ⟨rest.flatMap frameBytes, ?_⟩
      (hopen.part_incomplete (hfs f (List.mem_append_right _ List.mem_cons_self)))
    rw [← hbytes, List.flatMap_cons]

end ReadSoFar

/-- **The frames of a stream.**  However the stream is cut into pieces, what `frame_recv` has read
is the bytes of the frames that it has returned, and the part of the next one, which holds no
whole frame.  A stream that starts the bytes of frames that may be sent is never refused, and the
frames that are returned are the first ones of them.  As long as there is memory, the reader stays
open, and when the whole stream was read it has returned all of its frames. -/
theorem frame_recv_any_chunks {es : List Recv} {r : FrameReader}
    (h : Run FrameReader.Step (.header []) es r) :
    (r ≠ .closed → bytesRead es = (framesRead es).flatMap frameBytes ++ r.part ∧
      ∀ f, f.Fits → ¬ frameBytes f <+: r.part) ∧
    ∀ fs : List RawFrame, (∀ f ∈ fs, f.Fits) → bytesRead es <+: fs.flatMap frameBytes →
      framesRead es <+: fs ∧ (∀ e ∈ es, e.2 ≠ .malformed) ∧
      ((∀ e ∈ es, e.2 ≠ .noMemory) → r ≠ .closed ∧
        (bytesRead es = fs.flatMap frameBytes → framesRead es = fs)) := by
  have hread := readSoFar_of_run h
  refine ⟨fun hr => ⟨(hread.reading hr).2, fun f hf => (hread.reading hr).1.part_incomplete hf⟩,
    fun fs hfs hpre => ?_⟩
  obtain ⟨hfirst, hgood⟩ := hread.of_stream hfs hpre
  refine ⟨hfirst, hgood, fun hmem => ?_⟩
  have hr : r ≠ .closed := by
    intro hclosed
    obtain ⟨e, he, hmal | hnone⟩ := hread.closed hclosed
    · exact hgood e he hmal
    · exact hmem e he hnone
  exact ⟨hr, hread.all_frames hr hfs⟩

/-- A frame with one byte, in three pieces. -/
theorem frame_recv_any_chunks_ping : ∃ (es : List Recv) (r : FrameReader),
    es.map Prod.fst = [[0, 0, 0], [3, 1, 0x0B], [7]] ∧ r ≠ .closed ∧
      framesRead es = [⟨MsgType.ping.code, [7]⟩] := by
  have hrun : Run FrameReader.Step (.header [])
      ([] ++ [([0, 0, 0], .waiting)] ++ [([3, 1, 0x0B], .waiting)] ++
        [([7], .frame ⟨MsgType.ping.code, [7]⟩)]) (.header []) :=
    ((Run.refl _).tail (.fed true (.header []) [0, 0, 0] ⟨by decide, by decide⟩)).tail
      (.fed true (.header [0, 0, 0]) [3, 1, 0x0B] ⟨by decide, by decide⟩) |>.tail
      (.fed true (.payload 0x0B 1 []) [7] ⟨by decide, by decide⟩)
  have hfits : ∀ f ∈ [(⟨MsgType.ping.code, [7]⟩ : RawFrame)], f.Fits := by
    intro f hf
    rw [List.mem_singleton.mp hf]
    exact show 1 ≤ acFrameMaxBytes - 2 by decide
  obtain ⟨-, -, hgranted⟩ := (frame_recv_any_chunks hrun).2 _ hfits (List.prefix_refl _)
  obtain ⟨hopen, hall⟩ := hgranted (by simp)
  exact ⟨_, _, rfl, hopen, hall rfl⟩

end AgentChain
