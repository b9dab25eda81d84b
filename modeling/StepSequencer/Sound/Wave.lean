import StepSequencer.Number.Power

/-!
# Wave files

A wave file is a list of chunks. A format chunk says how a sample value is stored, and the data
chunk that follows it holds the values, one per channel in turn. Other chunks are skipped.
-/

namespace StepSequencer

/-- How the chunks of a wave file can be wrong. -/
inductive WaveFlaw where
  | noRiffTag
  | noWaveTag
  | noFormat
  | shortFormat
  | noChannels
  | wideSample
  | inconsistentRate
  | partialByte
  | noBits
  | formatSize
  | pcmBits
  | extensionSize
  | floatBits
  | extensibleSize
  | partialSample
  | partialFrame
  deriving DecidableEq

/-- The wording of the flaw. -/
def WaveFlaw.message : WaveFlaw → String
  | .noRiffTag => "no RIFF tag found"
  | .noWaveTag => "no WAVE tag found"
  | .noFormat => "missing fmt chunk"
  | .shortFormat => "invalid fmt chunk size"
  | .noChannels => "file contains zero channels"
  | .wideSample => "sample bits exceeds size of sample"
  | .inconsistentRate => "inconsistent fmt chunk"
  | .partialByte => "bits per sample is not a multiple of 8"
  | .noBits => "bits per sample is 0"
  | .formatSize => "unexpected fmt chunk size"
  | .pcmBits => "bits per sample is not 8 or 16"
  | .extensionSize => "unexpected WAVEFORMATEX size"
  | .floatBits => "bits per sample is not 32"
  | .extensibleSize => "unexpected WAVEFORMATEXTENSIBLE size"
  | .partialSample => "data chunk length is not a multiple of sample size"
  | .partialFrame => "invalid data chunk length"

/-- Why a wave file cannot be read. -/
inductive WaveError where
  | cutShort
  | unsupported
  | tooWide
  | malformed (flaw : WaveFlaw)
  deriving DecidableEq

/-- The wording of the error. -/
def WaveError.message : WaveError → String
  | .cutShort => "Failed to read enough bytes."
  | .unsupported => "The wave format of the file is not supported."
  | .tooWide => "The sample has more bits than the destination type."
  | .malformed flaw => "Ill-formed WAVE file: " ++ flaw.message

/-- How a sample value is stored. -/
structure WaveFormat where
  channels : Nat
  rate : Nat
  bytesPerSample : Nat
  bits : Nat
  isFloat : Bool

/-- A wave file up to its data. -/
structure Wave where
  format : WaveFormat
  /-- The number of values, over all channels. -/
  count : Nat
  bytes : ByteArray
  /-- Where in the bytes the values begin. -/
  offset : Nat

namespace Wave

/-! ### Words -/

/-- The number that `width` bytes make from an offset on, the lowest first. -/
def littleEndian (bytes : ByteArray) (offset : Nat) : Nat → Nat
  | 0 => 0
  | width + 1 => (bytes[offset]?.getD 0).toNat + 256 * littleEndian bytes (offset + 1) width

/-- The number stored in `width` bytes from an offset on. -/
def word (bytes : ByteArray) (offset width : Nat) : Except WaveError Nat :=
  if offset + width ≤ bytes.size then .ok (littleEndian bytes offset width) else .error .cutShort

/-- A tag of four letters, as a number. -/
def tag (letters : String) : Nat := littleEndian letters.toUTF8 0 4

/-- Refuses a file with a flaw. -/
def refuse (flawed : Bool) (flaw : WaveFlaw) : Except WaveError Unit :=
  if flawed then .error (.malformed flaw) else .ok ()

/-! ### The format chunk -/

/-- A format chunk for whole numbers. -/
def pcmFormat (f : WaveFormat) (size : Nat) (bytes : ByteArray) (offset : Nat) :
    Except WaveError (WaveFormat × Nat) := do
  refuse (size != 16 && size != 18 && size != 40) .formatSize
  if 16 < size then
    let _ ← word bytes (offset + 16) 2
    refuse (f.bits != 8 && f.bits != 16 && f.bits != 24) .pcmBits
    let _ ← word bytes offset size
  return (f, size)

/-- A format chunk for floating-point numbers. -/
def floatFormat (f : WaveFormat) (size : Nat) (bytes : ByteArray) (offset : Nat) :
    Except WaveError (WaveFormat × Nat) := do
  refuse (size != 16 && size != 18) .formatSize
  if size = 18 then
    refuse ((← word bytes (offset + 16) 2) != 0) .extensionSize
  refuse (f.bits != 32) .floatBits
  return ({ f with isFloat := true }, size)

/-- The last 14 bytes of the identifiers of both known kinds of values, as a number. -/
def knownKinds : Nat := 0x719b3800aa000080001000000000

/-- A format chunk with an identifier for the kind of the values. It can lower the
number of bits. -/
def extensibleFormat (f : WaveFormat) (size : Nat) (bytes : ByteArray) (offset : Nat) :
    Except WaveError (WaveFormat × Nat) := do
  refuse (size < 40) .formatSize
  refuse ((← word bytes (offset + 16) 2) != 22) .extensibleSize
  let validBits ← word bytes (offset + 18) 2
  let kind ← word bytes (offset + 24) 2
  let rest ← word bytes (offset + 26) 14
  if rest ≠ knownKinds || (kind ≠ 1 && kind ≠ 3) then
    throw .unsupported
  let bits := if 0 < validBits then validBits else f.bits
  return ({ f with bits := bits, isFloat := kind == 3 }, 40)

/-- The format in a chunk of some size, and how many bytes of it were read. -/
def readFormat (size : Nat) (bytes : ByteArray) (offset : Nat) :
    Except WaveError (WaveFormat × Nat) := do
  refuse (size < 16) .shortFormat
  let kind ← word bytes offset 2
  let channels ← word bytes (offset + 2) 2
  let rate ← word bytes (offset + 4) 4
  let byteRate ← word bytes (offset + 8) 4
  let frameSize ← word bytes (offset + 12) 2
  let bits ← word bytes (offset + 14) 2
  refuse (channels == 0) .noChannels
  let bytesPerSample := frameSize / channels
  refuse (8 * bytesPerSample < bits || 2 ^ 16 ≤ 8 * bytesPerSample) .wideSample
  refuse (byteRate != frameSize * rate) .inconsistentRate
  refuse (bits % 8 != 0) .partialByte
  refuse (bits == 0) .noBits
  let format : WaveFormat := ⟨channels, rate, bytesPerSample, bits, false⟩
  match kind with
  | 1 => pcmFormat format size bytes offset
  | 3 => floatFormat format size bytes offset
  | 0xfffe => extensibleFormat format size bytes offset
  | _ => throw .unsupported

/-! ### Chunks -/

/-- The file from a data chunk on. It must hold whole values, and as many for each channel. -/
def ofData (f : WaveFormat) (size : Nat) (bytes : ByteArray) (offset : Nat) :
    Except WaveError Wave := do
  let count := size / f.bytesPerSample
  refuse (size % f.bytesPerSample != 0) .partialSample
  refuse (count % f.channels != 0) .partialFrame
  return ⟨f, count, bytes, offset⟩

/-- The file from the chunk at an offset on, after the format that was met last. -/
def ofChunks (format : Option WaveFormat) (bytes : ByteArray) (offset : Nat) :
    Except WaveError Wave :=
  if offset + 8 ≤ bytes.size then
    let kind := littleEndian bytes offset 4
    let size := littleEndian bytes (offset + 4) 4
    let body := offset + 8
    if kind = tag "data" then
      match format with
      | none => .error (.malformed .noFormat)
      | some f => ofData f size bytes body
    else if kind = tag "fmt " then
      match readFormat size bytes body with
      | .error e => .error e
      | .ok (f, read) => ofChunks (some f) bytes (body + read)
    else if kind = tag "fact" then ofChunks format bytes (body + 4)
    else if body + size ≤ bytes.size then ofChunks format bytes (body + size)
    else .error .cutShort
  else .error .cutShort
termination_by bytes.size - offset

/-- Reads a file up to its data. -/
def ofBytes (bytes : ByteArray) : Except WaveError Wave := do
  refuse ((← word bytes 0 4) != tag "RIFF") .noRiffTag
  let _ ← word bytes 4 4
  refuse ((← word bytes 8 4) != tag "WAVE") .noWaveTag
  ofChunks none bytes 12

/-! ### Values -/

/-- The number that the lowest `bits` bits of a word stand for in two's complement. -/
def signed (bits word : Nat) : Int := (word : Int).bmod (2 ^ bits)

/-- The value that a word of the file stands for. Whole numbers are scaled into the range from -1
to 1; those of a single byte have no sign of their own. -/
def decoder (f : WaveFormat) : Except WaveError (Nat → Float32) :=
  let scaled (value : Int) : Float32 := Float32.ofInt value / Float32.ofNat (2 ^ (f.bits - 1))
  match f.isFloat, f.bytesPerSample, f.bits with
  | true, 4, 32 => .ok fun word ↦ Float32.ofBits (UInt32.ofNat word)
  | false, 1, 8 => .ok fun word ↦ scaled (word - 128)
  | false, 2, 16 => .ok fun word ↦ scaled (signed 16 word)
  | false, 3, 24 => .ok fun word ↦ scaled (signed 24 word)
  | false, 4, 24 => .ok fun word ↦ scaled (signed 24 word)
  | false, 4, 32 => .ok fun word ↦ scaled (signed 32 word)
  | _, bytes, _ => .error (if 4 < bytes then .tooWide else .unsupported)

/-- The values of the file. -/
def values (w : Wave) : Except WaveError (Array Float32) := do
  if w.count = 0 then
    return #[]
  let decode ← decoder w.format
  let width := w.format.bytesPerSample
  if w.bytes.size < w.offset + w.count * width then
    throw .cutShort
  return (Array.range w.count).map fun k ↦
    decode (littleEndian w.bytes (w.offset + k * width) width)

end Wave

end StepSequencer
