import Rxrpl.HexText
import Rxrpl.Json

/-!
# Frames of the peer protocol

The decoder takes whole frames off the front of a buffer to which bytes are added as they arrive,
skips those of an unknown type, and waits when less than a frame is there. So the messages do not
depend on how the bytes were cut, as long as each length fits the 26 bits the header has for it.
-/

namespace Rxrpl.P2p

open Codec List

def messageTypes : List ℕ :=
    [1,2,3,5,15,30,31,32,33,34,35,41,42,54,55,56,63,64,70,71,72,73]

structure MessageType where
  asU32 : ℕ
  known : asU32∈messageTypes

def fromU32 (v : ℕ) : Option MessageType := if h : v∈messageTypes then some ⟨v,h⟩ else none

structure PeerMessage where
  msgType : MessageType
  payload : Bytes

def encode (item : PeerMessage) : Bytes :=
  toBeBytes 4 item.payload.length++(toBeBytes 2 item.msgType.asU32++item.payload)

def maxPayloadSize : ℕ := 64*1024*1024

def headerSize (compressed : Bool) : ℕ := if compressed then 10 else 6

/-- The checks of the first byte, with whether the frame is compressed. -/
def flags (first : UInt8) : Except String Bool :=
  if first &&& 0x80≠0 then
    if first &&& 0x0C≠0 then .error "compressed frame has reserved flag bits set"
    else if first &&& 0xF0≠0x90 then
      let text := ascii (hexEncodeUpper [first])
      .error s!"unsupported peer compression algorithm: 0x{text}"
    else .ok true
  else if first &&& 0xFC≠0 then .error "uncompressed frame has non-zero flag bits"
  else .ok false

section

-- LZ4 decompression into so many bytes, with its check that they are filled
variable (decompress : Bytes → ℕ → Except String Bytes)

def decode (src : Bytes) : Except String (Option PeerMessage × Bytes) :=
  if src.length < 6 then .ok (none,src)
  else
    match flags (src.headD 0) with
    | .error e => .error e
    | .ok compressed =>
      let start := headerSize compressed
      let length := fromBeBytes (src.take 4) % 2^26
      let size := fromBeBytes ((src.drop 6).take 4)
      if src.length < start then .ok (none,src)
      else if maxPayloadSize < length then .error s!"payload too large: {length}"
      else if compressed ∧ (size=0 ∨ maxPayloadSize < size) then
        .error s!"invalid uncompressed payload size: {size}"
      else if src.length < start+length then .ok (none,src)
      else
        let payload := (src.drop start).take length
        match fromU32 (fromBeBytes ((src.drop 4).take 2)) with
        | some t =>
          (if compressed then decompress payload size else .ok payload).map
            (⟨some ⟨t,·⟩,src.drop (start+length)⟩)
        | none => decode (src.drop (start+length))
termination_by src.length
decreasing_by
  have : 6 ≤ headerSize compressed := by cases compressed <;> decide
  rw [length_drop]
  omega

/-- `decode` called until it finds no message. -/
inductive Drains : Bytes → List PeerMessage → Bytes → Prop
  | stop {src rest} (h : decode decompress src=.ok (none,rest)) : Drains src [] rest
  | more {src src' rest msg msgs} (h : decode decompress src=.ok (some msg,src'))
      (t : Drains src' msgs rest) :
      Drains src (msg::msgs) rest

/-- The buffer is drained after each chunk. -/
inductive Feeds : Bytes → List Bytes → List PeerMessage → Bytes → Prop
  | nil {buf} : Feeds buf [] [] buf
  | cons {buf chunk chunks buf' rest msgs msgs'} (h : Drains decompress (buf++chunk) msgs buf')
      (t : Feeds buf' chunks msgs' rest) :
      Feeds buf (chunk::chunks) (msgs++msgs') rest

end

/-- A well-formed frame, compressed only if its type is unknown. -/
structure Frame where
  bytes : Bytes
  compressed : Bool
  flags_eq : flags (bytes.headD 0)=.ok compressed
  length_eq : bytes.length=headerSize compressed+fromBeBytes (bytes.take 4) % 2^26
  size_le : compressed → fromU32 (fromBeBytes ((bytes.drop 4).take 2))=none ∧
    0 < fromBeBytes ((bytes.drop 6).take 4) ∧ fromBeBytes ((bytes.drop 6).take 4) ≤ maxPayloadSize

namespace Frame

variable (f : Frame)

def msgType : ℕ := fromBeBytes ((f.bytes.drop 4).take 2)

def message : Option PeerMessage :=
    (fromU32 f.msgType).map (⟨·,f.bytes.drop (headerSize f.compressed)⟩)

theorem six_le : 6 ≤ f.bytes.length := by
  have : 6 ≤ headerSize f.compressed := by cases f.compressed <;> decide
  have := f.length_eq
  omega

end Frame

variable {f : Frame} {fs : List Frame} {src buf rest : Bytes}
  {decompress : Bytes → ℕ → Except String Bytes}

theorem slice_eq (h : src <+: f.bytes++rest) {i k : ℕ} (hsrc : i+k ≤ src.length)
    (hf : i+k ≤ f.bytes.length) : (src.drop i).take k=(f.bytes.drop i).take k := by
  obtain ⟨t,ht⟩ := h
  have h := congrArg (fun x => (x.drop i).take k) ht
  rwa [drop_append_of_le_length (by omega),drop_append_of_le_length (by omega),
    take_append_of_le_length (by rw [length_drop]; omega),
      take_append_of_le_length (by rw [length_drop]; omega)] at h

theorem decode_eq (h : src <+: f.bytes++rest) : decode decompress src =
    if src.length < f.bytes.length then .ok (none,src) else match fromU32 f.msgType with
      | some t => .ok (some ⟨t,f.bytes.drop (headerSize f.compressed)⟩,src.drop f.bytes.length)
      | none => decode decompress (src.drop f.bytes.length) := by
  have hb := f.length_eq
  have hf := f.six_le
  by_cases h6 : src.length < 6
  · rw [decode,if_pos h6,if_pos (by omega)]
  have hhead (x : Bytes) : x.headD 0=(x.take 4).headD 0 := by cases x <;> rfl
  have hword : src.take 4=f.bytes.take 4 := by
    simpa using slice_eq h (i := 0) (k := 4) (by omega) (by omega)
  rw [decode,if_neg h6,hhead,hword,← hhead,f.flags_eq]
  simp only [slice_eq h (i := 4) (k := 2) (by omega) (by omega),← hb]
  by_cases hstart : src.length < headerSize f.compressed
  · rw [if_pos hstart,if_pos (by omega)]
  have hsize : ¬(f.compressed ∧ (fromBeBytes ((src.drop 6).take 4)=0 ∨
      maxPayloadSize < fromBeBytes ((src.drop 6).take 4))) := by
    rintro ⟨hc,hs⟩
    obtain ⟨-,hpos,hle⟩ := f.size_le hc
    simp only [headerSize,hc,if_true] at hb hstart
    rw [slice_eq h (by omega) (by omega)] at hs
    omega
  have hfits : ¬maxPayloadSize < fromBeBytes (f.bytes.take 4) % 2^26 :=
    not_lt.mpr (Nat.mod_lt _ (by decide)).le
  rw [if_neg hstart,if_neg hfits,if_neg hsize]
  by_cases hall : src.length < f.bytes.length
  · rw [if_pos hall,if_pos hall]
  rw [if_neg hall,if_neg hall,← Frame.msgType]
  cases ht : fromU32 f.msgType with
  | none => rfl
  | some t =>
    have hc : ¬f.compressed := fun hc => by simp [Frame.msgType,(f.size_le hc).1] at ht
    rw [if_neg hc,slice_eq h (by omega) (by omega),take_of_length_le (by simp; omega)]
    rfl

/-- A buffer at the start of a stream of frames gives the messages of those it holds, and keeps less
than a frame. -/
theorem exists_drains {tail : Bytes} (h : src++tail=fs.flatMap Frame.bytes) : ∃ done left buf,
    fs=done++left ∧
    Drains decompress src (done.filterMap Frame.message) buf ∧ buf++tail=left.flatMap Frame.bytes ∧
      ∀ f∈left.head?, buf.length < f.bytes.length := by
  induction fs generalizing src with
  | nil =>
    obtain ⟨rfl,rfl⟩ := append_eq_nil_iff.mp h
    exact ⟨[],[],[],rfl,.stop (by rw [decode]; rfl),rfl,by simp⟩
  | cons f fs ih =>
    have hdec : decode decompress src=_ := decode_eq (f := f) ⟨tail,h⟩
    by_cases hlen : src.length < f.bytes.length
    · rw [if_pos hlen] at hdec
      exact ⟨[],f::fs,src,rfl,.stop hdec,h,by simpa using hlen⟩
    rw [if_neg hlen] at hdec
    have hrest : src.drop f.bytes.length++tail=fs.flatMap Frame.bytes := by
      have h := congrArg (drop f.bytes.length) h
      rwa [drop_append_of_le_length (by omega),flatMap_cons,drop_left] at h
    obtain ⟨done,left,buf,rfl,hd,hbuf,hleft⟩ := ih hrest
    refine ⟨f::done,left,buf,rfl,?_,hbuf,hleft⟩
    rw [filterMap_cons,Frame.message]
    generalize done.filterMap Frame.message=msgs at hd
    cases ht : fromU32 f.msgType with
    | some t => exact .more (by rwa [ht] at hdec) hd
    | none =>
      rw [ht] at hdec
      cases hd with
      | stop h => exact .stop (hdec.trans h)
      | more h t => exact .more (hdec.trans h) t

theorem feeds {chunks : List Bytes} (h : buf++chunks.flatten=fs.flatMap Frame.bytes)
    (hbuf : ∀ f∈fs.head?, buf.length < f.bytes.length) :
      Feeds decompress buf chunks (fs.filterMap Frame.message) [] := by
  induction chunks generalizing fs buf with
  | nil =>
    cases fs with
    | nil =>
      obtain rfl : buf=[] := by simpa using h
      exact .nil
    | cons f fs =>
      have := congrArg length h
      have := hbuf f rfl
      simp at *
      omega
  | cons chunk chunks ih =>
    rw [flatten_cons,← append_assoc] at h
    obtain ⟨done,left,buf',rfl,hd,hrest,hleft⟩ := exists_drains h
    rw [filterMap_append]
    exact .cons hd (ih hrest hleft)

theorem exists_frame {m : PeerMessage} (h : m.payload.length < maxPayloadSize) :
    ∃ f : Frame, f.bytes=encode m ∧ f.message=some m := by
  unfold maxPayloadSize at h
  have hlength : m.payload.length/256/256/256 % 256 < 4 := by omega
  have hflags : flags ((encode m).headD 0)=.ok false := by
    change flags (UInt8.ofNat (m.payload.length/256/256/256 % 256))=_
    interval_cases m.payload.length/256/256/256 % 256 <;> rfl
  have htype : fromU32 (fromBeBytes (((encode m).drop 4).take 2))=some m.msgType := by
    have hu : fromBeBytes (((encode m).drop 4).take 2)=m.msgType.asU32 := by
      have := m.msgType.known
      simp [encode,fromBeBytes_toBeBytes,messageTypes] at this ⊢
      omega
    rw [hu,fromU32,dif_pos m.msgType.known]
  refine ⟨⟨encode m,false,hflags,?_,by simp⟩,rfl,?_⟩
  · simp [encode,headerSize,fromBeBytes_toBeBytes]
    omega
  · simp only [Frame.message,Frame.msgType,htype]
    simp [encode,headerSize,drop_append,drop_eq_nil_of_le]

theorem decode_full {m : PeerMessage} (h : m.payload.length=maxPayloadSize) :
    decode decompress (encode m++rest)=.error "uncompressed frame has non-zero flag bits" := by
  have hflags :
    flags ((encode m++rest).headD 0)=.error "uncompressed frame has non-zero flag bits" := by
    change flags (UInt8.ofNat (m.payload.length/256/256/256 % 256))=_
    rw [h]
    rfl
  have hlen : ¬(encode m++rest).length < 6 := by
    simp [encode]
    omega
  rw [decode,if_neg hlen,hflags]

/-- However the bytes of messages and of unknown frames are cut, they give just the messages, in
order, and leave nothing, when each payload is below `MAX_PAYLOAD_SIZE`; a payload of that size is
an error. -/
theorem framing_any_chunks (decompress : Bytes → ℕ → Except String Bytes)
    (ps : List (PeerMessage ⊕ { f : Frame // fromU32 f.msgType=none }))
    (hps : ∀ m, .inl m∈ps → m.payload.length < maxPayloadSize) :
    (∀ chunks : List Bytes, chunks.flatten=ps.flatMap (Sum.elim encode (·.1.bytes)) →
      Feeds decompress [] chunks (ps.filterMap Sum.getLeft?) []) ∧
    ∀ (m : PeerMessage) (rest : Bytes), m.payload.length=maxPayloadSize →
      ∃ e, decode decompress (encode m++rest)=.error e := by
  have hframes : ∃ fs : List Frame,
    fs.flatMap Frame.bytes=ps.flatMap (Sum.elim encode (·.1.bytes)) ∧
      fs.filterMap Frame.message=ps.filterMap Sum.getLeft? := by
    induction ps with
    | nil => exact ⟨[],rfl,rfl⟩
    | cons p ps ih =>
      obtain ⟨fs,hbytes,hmsgs⟩ := ih fun m hm => hps m (mem_cons_of_mem p hm)
      cases p with
      | inl m =>
        obtain ⟨f,hf,hm⟩ := exists_frame (hps m mem_cons_self)
        exact ⟨f::fs,by simp [hf,hm,hbytes,hmsgs]⟩
      | inr f => exact ⟨f.1::fs,by simp [Frame.message,f.2,hbytes,hmsgs,filterMap_cons]⟩
  obtain ⟨fs,hbytes,hmsgs⟩ := hframes
  refine ⟨fun chunks h => ?_,fun m rest h => ⟨_,decode_full h⟩⟩
  rw [← hmsgs]
  exact feeds (h.trans hbytes.symm) fun f _ => Nat.zero_lt_of_lt f.six_le

private def unknownFrame : Frame := ⟨[0,0,0,1,0,9,5],false,by decide,by decide,nofun⟩

/-- Two messages with a frame of unknown type between them, cut inside a payload and inside headers.
-/
theorem framing_three_frames : Feeds (fun _ _ => .error "") []
    [[0,0,0,2,0,3,7],[8,0,0,0,1,0],[9,5,0,0,0,1,0,33,6]]
    [⟨⟨3,by decide⟩,[7,8]⟩,⟨⟨33,by decide⟩,[6]⟩] [] :=
  (framing_any_chunks _ [.inl ⟨⟨3,by decide⟩,[7,8]⟩,.inr ⟨unknownFrame,by decide⟩,
    .inl ⟨⟨33,by decide⟩,[6]⟩] (by simp [maxPayloadSize])).1 _ (by decide)

theorem largest_payload_rejected :
    decode (fun _ _ => .error "") (encode ⟨⟨3,by decide⟩,replicate maxPayloadSize 0⟩) =
    .error "uncompressed frame has non-zero flag bits" := by
  rw [← append_nil (encode _)]
  exact decode_full length_replicate

end Rxrpl.P2p
