import Monty.Lib.ByteStream
import Monty.Lib.Fallible
import Monty.Lib.MachineInt
import Monty.Lib.Simulation

/-!
# Frames

Messages travel over a byte stream in frames: four little-endian bytes that say how long the body
is, and the body, in the encoding of a `Codec`. `writeFrame` puts one on the stream and
`FrameReader.read` takes one off, out of a source that hands its bytes out as it likes.

However the bytes arrive, the loop that fills a buffer takes just what it was asked for off the
stream, or finds the end (`readExactOrEof_spec`). From that the three things that can be at the
front of the stream follow: a whole frame (`read_frame`), nothing (`read_nil`) and a part of a frame
(`read_cut`).
-/

namespace Monty.Proto

open ByteStream MachineInt Simulation List Source

/-- The largest frame body, 256 MiB. -/
def maxFrameLen : Nat := 256 * 1024 * 1024

/-- Failures of reading or writing a frame. -/
inductive FrameError (ε δ : Type)
  | io (err : ε)
  | decode (err : δ)
  | frameTooLarge (len max : Nat)
  | truncated
  deriving DecidableEq, Repr

/-- How the body of one message is encoded. -/
structure Codec (M δ : Type) where
  encodedLen : M → Nat
  encodeToVec : M → Bytes
  decode : Bytes → Except δ M

/-- Decoding undoes encoding, and the announced length is the length. -/
structure Codec.Lawful {M δ : Type} (codec : Codec M δ) : Prop where
  decode_encode : ∀ m, codec.decode (codec.encodeToVec m) = .ok m
  length_encode : ∀ m, (codec.encodeToVec m).length = codec.encodedLen m

variable {M ε δ : Type}

/-! ## Writing -/

variable (codec : Codec M δ)

/-- Rejects a message whose body would be too long. -/
def checkFrameLen (m : M) : Except (FrameError ε δ) Nat :=
  if codec.encodedLen m ≤ maxFrameLen then .ok (codec.encodedLen m)
  else .error (.frameTooLarge (min (codec.encodedLen m) u32Max) maxFrameLen)

/-- Encodes a message, unless it is too long. -/
def encodeToCappedVec (m : M) : Except (FrameError ε δ) Bytes := do
  let _ ← checkFrameLen codec m
  return codec.encodeToVec m

def writeFrame (out : Bytes) (m : M) : Except (FrameError ε δ) Bytes := do
  let body ← encodeToCappedVec codec m
  let len := min body.length u32Max
  return out ++ leBytes 4 len ++ body

/-- Encodes a message as one frame into a buffer, whatever the buffer held before. -/
def encodeFramedInto (m : M) (_buf : Bytes) : Except (FrameError ε δ) Bytes := do
  let len ← checkFrameLen codec m
  let buf := []
  return buf ++ leBytes 4 len ++ codec.encodeToVec m

/-- The stream that a sequence of messages is written to. -/
def writeFrames (ms : List M) : Except (FrameError ε δ) Bytes := ms.foldlM (writeFrame codec) []

/-! ## Reading -/

/-- How filling a buffer ended. -/
inductive ReadOutcome
  | filled
  /-- The stream ended before any byte was read. -/
  | cleanEof
  /-- The stream ended with the buffer partly filled. -/
  | truncated
  deriving DecidableEq, Repr

/-- Fills a buffer of `len` bytes, of which `filled` are there already. An interrupted read is made
again. -/
def readExactOrEof (s : Source ε) (len : Nat) (filled : Bytes) :
    Except ε (ReadOutcome × Bytes) × Source ε :=
  if _hlen : filled.length < len then
    match _hread : s.read (len - filled.length) with
    | (.ok chunk, s') =>
      if _hchunk : chunk = [] then
        (.ok (if filled = [] then .cleanEof else .truncated, filled), s')
      else readExactOrEof s' len (filled ++ chunk)
    | (.interrupted, s') => readExactOrEof s' len filled
    | (.failed err, s') => (.error err, s')
  else (.ok (.filled, filled), s)
termination_by s.plan.length + (len - filled.length)
decreasing_by
  · have hle : s'.plan.length ≤ s.plan.length := by
      simpa [_hread] using length_plan_read_le s (len - filled.length)
    have := length_pos_iff.mpr _hchunk
    simp only [length_append]
    omega
  · have := length_plan_read_lt _hread
    omega

/-- A reader of frames. -/
structure FrameReader (ε : Type) where
  inner : Source ε
  maxFrameLen : Nat
  deriving DecidableEq, Repr

def FrameReader.readBody (r : FrameReader ε) (len : Nat) :
    Except (FrameError ε δ) (Option M) × FrameReader ε :=
  match readExactOrEof r.inner len [] with
  | (.error err, inner) => (.error (.io err), { r with inner })
  | (.ok (.filled, body), inner) =>
    (((codec.decode body).map some).mapError .decode, { r with inner })
  | (.ok (_, _), inner) => (.error .truncated, { r with inner })

/-- Reads one frame: nothing at a clean end of the stream. -/
def FrameReader.read (r : FrameReader ε) : Except (FrameError ε δ) (Option M) × FrameReader ε :=
  match readExactOrEof r.inner 4 [] with
  | (.error err, inner) => (.error (.io err), { r with inner })
  | (.ok (.cleanEof, _), inner) => (.ok none, { r with inner })
  | (.ok (.truncated, _), inner) => (.error .truncated, { r with inner })
  | (.ok (.filled, lenBytes), inner) =>
    let len := leValue lenBytes
    if len > r.maxFrameLen then (.error (.frameTooLarge len r.maxFrameLen), { r with inner })
    else FrameReader.readBody codec { r with inner } len

/-- What `n` reads in a row return. -/
def FrameReader.reads (r : FrameReader ε) (n : Nat) : List (Except (FrameError ε δ) (Option M)) :=
  (transcript (fun r (_ : Unit) => r.read codec) r (List.replicate n ())).1

/-! ## Filling a buffer -/

/-- What filling a buffer does: it takes what it was asked for off the stream, or all there is. -/
def expected (pending : Bytes) (len : Nat) (filled : Bytes) : ReadOutcome × Bytes :=
  if len - filled.length ≤ pending.length then
    (.filled, filled ++ pending.take (len - filled.length))
  else (if filled ++ pending = [] then .cleanEof else .truncated, filled ++ pending)

theorem expected_append (pending : Bytes) (len : Nat) (filled : Bytes) {n : Nat}
    (hn : n ≤ len - filled.length) :
    expected (pending.drop n) len (filled ++ pending.take n) = expected pending len filled := by
  rcases lt_or_ge pending.length n with hlong | hshort
  · have hmore : ¬ len - filled.length ≤ pending.length := by omega
    have hmore' : ¬ len - (filled ++ pending).length ≤ ([] : Bytes).length := by
      simp only [length_append, length_nil]
      omega
    rw [drop_eq_nil_of_le hlong.le, take_of_length_le hlong.le, expected, expected,
      if_neg hmore, if_neg hmore', append_nil]
  have hsplit : pending.take (len - filled.length) =
      pending.take n ++ (pending.drop n).take (len - (filled.length + n)) := by
    rw [← take_add]
    congr 1
    omega
  have hlen : (filled ++ pending.take n).length = filled.length + n := by
    rw [length_append, length_take, min_eq_left hshort]
  have hiff : len - (filled.length + n) ≤ (pending.drop n).length ↔
      len - filled.length ≤ pending.length := by
    rw [length_drop]
    omega
  simp only [expected, hlen, hiff, hsplit, append_assoc, take_append_drop]

theorem drop_append_take (pending : Bytes) (len : Nat) (filled : Bytes) {n : Nat}
    (hn : n ≤ len - filled.length) :
    (pending.drop n).drop (len - (filled ++ pending.take n).length) =
      pending.drop (len - filled.length) := by
  rw [drop_drop, length_append, length_take]
  rcases lt_or_ge pending.length n with hlong | hshort
  · rw [drop_eq_nil_of_le (by omega), drop_eq_nil_of_le (by omega)]
  · congr 1
    omega

/-- **However the bytes arrive, a buffer is filled with what is at the front of the stream.** -/
theorem readExactOrEof_spec (s : Source ε) (hs : s.Reliable) (len : Nat) (filled : Bytes) :
    ∃ plan, plan <:+ s.plan ∧ readExactOrEof s len filled =
        (.ok (expected s.pending len filled), ⟨s.pending.drop (len - filled.length), plan⟩) := by
  fun_induction readExactOrEof s len filled with
  | case1 s filled hlen s' hread =>
    rcases read_cases hs (Nat.sub_pos_of_lt hlen) with
      ⟨plan, h, -⟩ | ⟨n, plan, h, hpos, -, hsuffix⟩
    · exact absurd (hread.symm.trans h) (by simp)
    obtain ⟨hnil, rfl⟩ := Prod.mk.inj (hread.symm.trans h)
    have hend : s.pending = [] := by
      rw [Answer.ok.injEq, eq_comm, take_eq_nil_iff] at hnil
      exact hnil.resolve_left (by omega)
    refine ⟨plan, hsuffix, ?_⟩
    simp only [hend, expected, length_nil, append_nil, drop_nil,
      Nat.le_zero, Nat.sub_ne_zero_of_lt hlen, if_false]
  | case2 s filled hlen chunk s' hread hchunk ih =>
    rcases read_cases hs (Nat.sub_pos_of_lt hlen) with
      ⟨plan, h, -⟩ | ⟨n, plan, h, hpos, hle, hsuffix⟩
    · exact absurd (hread.symm.trans h) (by simp)
    obtain ⟨hc, rfl⟩ := Prod.mk.inj (hread.symm.trans h)
    obtain rfl : chunk = s.pending.take n := Answer.ok.inj hc
    obtain ⟨plan', hsuffix', heq⟩ := ih (hs.of_suffix hsuffix)
    refine ⟨plan', hsuffix'.trans hsuffix, ?_⟩
    rw [heq, expected_append _ _ _ hle, drop_append_take _ _ _ hle]
  | case3 s filled hlen s' hread ih =>
    rcases read_cases hs (Nat.sub_pos_of_lt hlen) with
      ⟨plan, h, -, hsuffix⟩ | ⟨n, plan, h, -⟩
    · obtain ⟨-, rfl⟩ := Prod.mk.inj (hread.symm.trans h)
      obtain ⟨plan', hsuffix', heq⟩ := ih (hs.of_suffix hsuffix)
      exact ⟨plan', hsuffix'.trans hsuffix, heq⟩
    · exact absurd (hread.symm.trans h) (by simp)
  | case4 s filled hlen err s' hread =>
    rcases read_cases hs (Nat.sub_pos_of_lt hlen) with ⟨plan, h, -⟩ | ⟨n, plan, h, -⟩
    · exact absurd (hread.symm.trans h) (by simp)
    · exact absurd (hread.symm.trans h) (by simp)
  | case5 s filled hlen =>
    refine ⟨s.plan, suffix_rfl, ?_⟩
    simp [expected, Nat.sub_eq_zero_of_le (Nat.not_lt.mp hlen)]

variable {rest : Bytes}

theorem readExactOrEof_filled (s : Source ε) (hs : s.Reliable) {front : Bytes}
    (hp : s.pending = front ++ rest) :
    ∃ plan, plan <:+ s.plan ∧
      readExactOrEof s front.length [] = (.ok (.filled, front), ⟨rest, plan⟩) := by
  obtain ⟨plan, hsuffix, heq⟩ := readExactOrEof_spec s hs front.length []
  refine ⟨plan, hsuffix, ?_⟩
  rw [heq, hp]
  simp [expected]

theorem readExactOrEof_ended (s : Source ε) (hs : s.Reliable) (len : Nat)
    (hlen : s.pending.length < len) :
    ∃ plan, plan <:+ s.plan ∧ readExactOrEof s len [] =
        (.ok (if s.pending = [] then .cleanEof else .truncated, s.pending), ⟨[], plan⟩) := by
  obtain ⟨plan, hsuffix, heq⟩ := readExactOrEof_spec s hs len []
  refine ⟨plan, hsuffix, ?_⟩
  rw [heq, length_nil, Nat.sub_zero, drop_eq_nil_of_le hlen.le, expected,
    if_neg (by simpa using hlen), nil_append]

/-! ## Frames on the stream -/

/-- The frame of a message. -/
def frame (m : M) : Bytes := leBytes 4 (codec.encodedLen m) ++ codec.encodeToVec m

variable {m : M} {codec : Codec M δ}

theorem leValue_frame (hmax : codec.encodedLen m ≤ maxFrameLen) :
    leValue (leBytes 4 (codec.encodedLen m)) = codec.encodedLen m := by
  rw [leValue_leBytes, Nat.mod_eq_of_lt]
  calc codec.encodedLen m ≤ maxFrameLen := hmax
    _ < 256 ^ 4 := by decide

theorem checkFrameLen_eq_ok {len : Nat} :
    (checkFrameLen codec m : Except (FrameError ε δ) Nat) = .ok len ↔
      codec.encodedLen m ≤ maxFrameLen ∧ len = codec.encodedLen m := by
  rw [checkFrameLen]
  split_ifs with h
  · simp [h, eq_comm]
  · simp [h]

variable {ms : List M} {out' : Bytes}

section

variable {codec : Codec M δ} (hlaw : codec.Lawful)
variable {out : Bytes}

include hlaw

theorem writeFrame_eq_ok : (writeFrame codec out m : Except (FrameError ε δ) Bytes) = .ok out' ↔
      codec.encodedLen m ≤ maxFrameLen ∧ out' = out ++ frame codec m := by
  simp only [writeFrame, encodeToCappedVec, Fallible.bind_eq_ok, checkFrameLen_eq_ok, pure,
    Except.pure, Except.ok.injEq]
  constructor
  · rintro ⟨body, ⟨len, ⟨hmax, -⟩, rfl⟩, rfl⟩
    have hcap : codec.encodedLen m ≤ u32Max := hmax.trans (by decide)
    exact ⟨hmax, by rw [hlaw.length_encode, min_eq_left hcap, frame, append_assoc]⟩
  · rintro ⟨hmax, rfl⟩
    have hcap : codec.encodedLen m ≤ u32Max := hmax.trans (by decide)
    exact ⟨_, ⟨_, ⟨hmax, rfl⟩, rfl⟩,
      by rw [hlaw.length_encode, min_eq_left hcap, frame, append_assoc]⟩

/-- A frame that is encoded into a buffer is the one that is written, whatever the buffer held. -/
theorem encodeFramedInto_eq_ok {buf : Bytes} :
    (encodeFramedInto codec m buf : Except (FrameError ε δ) Bytes) = .ok out ↔
      (writeFrame codec [] m : Except (FrameError ε δ) Bytes) = .ok out := by
  rw [writeFrame_eq_ok hlaw]
  simp only [encodeFramedInto, Fallible.bind_eq_ok, checkFrameLen_eq_ok, pure, Except.pure,
    Except.ok.injEq]
  constructor
  · rintro ⟨len, ⟨hmax, rfl⟩, rfl⟩
    exact ⟨hmax, rfl⟩
  · rintro ⟨hmax, rfl⟩
    exact ⟨_, ⟨hmax, rfl⟩, rfl⟩

theorem foldlM_writeFrame :
    (ms.foldlM (writeFrame codec) out : Except (FrameError ε δ) Bytes) = .ok out' ↔
      (∀ m ∈ ms, codec.encodedLen m ≤ maxFrameLen) ∧ out' = out ++ ms.flatMap (frame codec) := by
  induction ms generalizing out with
  | nil => simp [pure, Except.pure, eq_comm]
  | cons m ms ih =>
    simp only [foldlM_cons, Fallible.bind_eq_ok, writeFrame_eq_ok hlaw, ih, mem_cons,
      forall_eq_or_imp, flatMap_cons]
    constructor
    · rintro ⟨_, ⟨hm, rfl⟩, hms, rfl⟩
      exact ⟨⟨hm, hms⟩, append_assoc ..⟩
    · rintro ⟨⟨hm, hms⟩, rfl⟩
      exact ⟨_, ⟨hm, rfl⟩, hms, (append_assoc ..).symm⟩

theorem writeFrames_eq_ok : (writeFrames codec ms : Except (FrameError ε δ) Bytes) = .ok out ↔
      (∀ m ∈ ms, codec.encodedLen m ≤ maxFrameLen) ∧ out = ms.flatMap (frame codec) := by
  rw [writeFrames, foldlM_writeFrame hlaw, nil_append]

end

/-! ## Reading frames -/

section

variable {codec : Codec M δ} {r : FrameReader ε}

theorem read_frame (hlaw : codec.Lawful) (hs : r.inner.Reliable)
    (hmax : codec.encodedLen m ≤ maxFrameLen) (hlen : codec.encodedLen m ≤ r.maxFrameLen)
    (hp : r.inner.pending = frame codec m ++ rest) :
    ∃ plan, plan <:+ r.inner.plan ∧
      r.read codec = (.ok (some m), { r with inner := ⟨rest, plan⟩ }) := by
  rw [frame, append_assoc] at hp
  obtain ⟨plan1, hsuffix1, h1⟩ := readExactOrEof_filled r.inner hs hp
  rw [length_leBytes] at h1
  obtain ⟨plan2, hsuffix2, h2⟩ :=
    readExactOrEof_filled ⟨codec.encodeToVec m ++ rest, plan1⟩ (hs.of_suffix hsuffix1) rfl
  rw [hlaw.length_encode] at h2
  refine ⟨plan2, hsuffix2.trans hsuffix1, ?_⟩
  simp only [FrameReader.read, h1, leValue_frame hmax]
  rw [if_neg (not_lt.mpr hlen)]
  simp only [FrameReader.readBody, h2, hlaw.decode_encode]
  rfl

theorem read_nil (hs : r.inner.Reliable) (hp : r.inner.pending = []) :
    (r.read codec).1 = .ok none := by
  obtain ⟨plan, -, h⟩ := readExactOrEof_ended r.inner hs 4 (by simp [hp])
  rw [hp, if_pos rfl] at h
  simp only [FrameReader.read, h]

theorem read_cut (hlaw : codec.Lawful) (hs : r.inner.Reliable)
    (hmax : codec.encodedLen m ≤ maxFrameLen) (hlen : codec.encodedLen m ≤ r.maxFrameLen)
    (hp : frame codec m = r.inner.pending ++ rest) (hsome : r.inner.pending ≠ [])
    (hrest : rest ≠ []) : (r.read codec).1 = .error .truncated := by
  rcases lt_or_ge r.inner.pending.length 4 with hshort | hlong
  · obtain ⟨plan, -, h⟩ := readExactOrEof_ended r.inner hs 4 hshort
    rw [if_neg hsome] at h
    simp only [FrameReader.read, h]
  -- the length is there, but not all of the body
  obtain ⟨body, hbody, hp'⟩ : ∃ body, codec.encodeToVec m = body ++ rest ∧
      r.inner.pending = leBytes 4 (codec.encodedLen m) ++ body := by
    rw [frame, append_eq_append_iff] at hp
    rcases hp with ⟨body, hpend, henc⟩ | ⟨more, hle, henc⟩
    · exact ⟨body, henc, hpend⟩
    have hmore : more = [] := by
      have := congrArg List.length hle
      rw [length_leBytes, length_append] at this
      exact eq_nil_of_length_eq_zero (by omega)
    subst hmore
    exact ⟨[], by simpa using henc.symm, by simpa using hle.symm⟩
  obtain ⟨plan1, hsuffix1, h1⟩ := readExactOrEof_filled r.inner hs hp'
  rw [length_leBytes] at h1
  have hless : body.length < codec.encodedLen m := by
    have := length_pos_iff.mpr hrest
    rw [← hlaw.length_encode, hbody, length_append]
    omega
  obtain ⟨plan2, -, h2⟩ := readExactOrEof_ended ⟨body, plan1⟩ (hs.of_suffix hsuffix1) _ hless
  simp only [FrameReader.read, h1, leValue_frame hmax]
  rw [if_neg (not_lt.mpr hlen), FrameReader.readBody, h2]
  by_cases hb : body = [] <;> simp [hb]

theorem reads_succ (n : Nat) :
    r.reads codec (n + 1) = (r.read codec).1 :: (r.read codec).2.reads codec n := rfl

section

variable (hlaw : codec.Lawful) (hs : r.inner.Reliable)
  (hmax : ∀ m ∈ ms, codec.encodedLen m ≤ maxFrameLen)
  (hlen : ∀ m ∈ ms, codec.encodedLen m ≤ r.maxFrameLen)

include hlaw hs hmax hlen

/-- What is read from a stream of frames that ends after `cut` bytes: the messages whose frames lie
before the cut, and then the end, which is a clean one at a frame boundary only. -/
theorem reads_take {cut : Nat} (hcut : cut ≤ (ms.flatMap (frame codec)).length)
    (hp : r.inner.pending = (ms.flatMap (frame codec)).take cut) :
    ∃ k ≤ ms.length, ((ms.take k).flatMap (frame codec)).length ≤ cut ∧ (∀ m, ms[k]? = some m →
        cut < ((ms.take k).flatMap (frame codec)).length + (frame codec m).length) ∧
      r.reads codec (k + 1) = (ms.take k).map (fun m => .ok (some m)) ++
        [if ((ms.take k).flatMap (frame codec)).length = cut then .ok none
          else .error .truncated] := by
  induction ms generalizing r cut with
  | nil =>
    have hzero : cut = 0 := by simpa using hcut
    refine ⟨0, le_rfl, by simp, by simp, ?_⟩
    rw [reads_succ, read_nil hs (by simp [hp])]
    simp [hzero, FrameReader.reads, transcript]
  | cons m ms ih =>
    rw [flatMap_cons] at hcut hp
    rcases lt_or_ge cut (frame codec m).length with hshort | hlong
    · refine ⟨0, by simp, by simp, by simpa using hshort, ?_⟩
      rw [take_append_of_le_length hshort.le] at hp
      by_cases hzero : cut = 0
      · rw [reads_succ, read_nil hs (by simp [hp, hzero])]
        simp [hzero, FrameReader.reads, transcript]
      have hsplit : frame codec m = r.inner.pending ++ (frame codec m).drop cut := by
        rw [hp, take_append_drop]
      have hsome : r.inner.pending ≠ [] := by
        rw [hp, Ne, take_eq_nil_iff, not_or]
        exact ⟨hzero, fun h => by simp [h] at hshort⟩
      have hrest : (frame codec m).drop cut ≠ [] := by
        rw [Ne, drop_eq_nil_iff]
        omega
      rw [reads_succ, read_cut hlaw hs (hmax m (by simp)) (hlen m (by simp)) hsplit hsome hrest]
      simp [Ne.symm hzero, FrameReader.reads, transcript]
    · obtain ⟨c, rfl⟩ := Nat.exists_eq_add_of_le hlong
      rw [take_length_add_append] at hp
      obtain ⟨plan, hsuffix, hread⟩ := read_frame hlaw hs (hmax m (by simp)) (hlen m (by simp)) hp
      have hc : c ≤ (ms.flatMap (frame codec)).length := by
        rw [length_append] at hcut
        omega
      obtain ⟨k, hk, hle, hnext, hreads⟩ :=
        ih (r := { r with inner := ⟨(ms.flatMap (frame codec)).take c, plan⟩ })
          (hs.of_suffix hsuffix) (fun a ha => hmax a (by simp [ha]))
          (fun a ha => hlen a (by simp [ha])) hc rfl
      refine ⟨k + 1, by simpa using hk, ?_, ?_, ?_⟩
      · simp only [take_succ_cons, flatMap_cons, length_append]
        omega
      · intro a ha
        have := hnext a (by simpa using ha)
        simp only [take_succ_cons, flatMap_cons, length_append]
        omega
      · rw [reads_succ, hread, hreads]
        simp [flatMap_cons]

theorem reads_all (hp : r.inner.pending = ms.flatMap (frame codec)) :
    r.reads codec (ms.length + 1) = ms.map (fun m => .ok (some m)) ++ [.ok none] := by
  obtain ⟨k, hk, -, hnext, hreads⟩ := reads_take hlaw hs hmax hlen le_rfl (by simp [hp])
  have hall : k = ms.length := by
    by_contra hne
    have hlt : k < ms.length := lt_of_le_of_ne hk hne
    have hless := hnext ms[k] (List.getElem?_eq_getElem hlt)
    have hsplit : ms.flatMap (frame codec) =
        (ms.take k).flatMap (frame codec) ++ (ms.drop k).flatMap (frame codec) := by
      rw [← flatMap_append, take_append_drop]
    rw [hsplit, drop_eq_getElem_cons hlt, flatMap_cons] at hless
    simp only [length_append] at hless
    omega
  rw [hall] at hreads
  simpa using hreads

end

end

/-- Messages that are their own bodies. -/
def rawCodec : Codec Bytes Unit where
  encodedLen := List.length
  encodeToVec := id
  decode := .ok

end Monty.Proto
