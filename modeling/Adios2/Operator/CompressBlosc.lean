import Adios2.Core.Operator

-- The operator that compresses with Blosc, in chunks. Small blocks, and blocks that the library does
-- not compress, are to be stored as they are behind a header.

namespace Operators.Blosc

open Bytes CString BP5 Helper

-- Constants of the library
def maxTypesize : Nat := 255
def maxOverhead : Nat := 32
def maxBuffersize : Nat := 2147483647 - maxOverhead

structure Settings where
  compressionLevel : Int       := 1
  doShuffle        : Nat       := 1
  threads          : Int       := 1
  compressor       : List Byte := ascii "blosclz"
  blockSize        : Nat       := 0
  thresholdSize    : Nat       := 128
  deriving DecidableEq, Repr

-- `blosc2_compress` and `blosc2_decompress`, with the room at the destination. `none` stands for a
-- negative number, which is an error. The version is that of the headers of the library.
structure Library where
  version       : Nat × Nat × Nat
  setCompressor : List Byte → Bool
  compress      : Settings → (typesize destsize : Nat) → (source : List Byte) → Option (List Byte)
  decompress    : (threads : Int) → (destsize : Nat) → (source : List Byte) → Option (List Byte)

section Parameters

def shuffles : List (List Byte × Nat) :=
  [(ascii "BLOSC_NOSHUFFLE", 0), (ascii "BLOSC_SHUFFLE", 1), (ascii "BLOSC_BITSHUFFLE", 2)]

def compressors : List (List Byte) :=
  ["blosclz", "lz4", "lz4hc", "snappy", "zlib", "zstd"].map ascii

def invalid (message : String) : Outcome Settings :=
  .error (.thrown "Operator" "CompressBlosc" "Operate" message)

-- A key that is not known is only warned about.
def Settings.set (s : Settings) (parameter : List Byte × List Byte) : Outcome Settings := do
  let (key, value) := parameter
  if key = ascii "compression_level" ∨ key = ascii "clevel" then do
    let compressionLevel ← stringToInt32 value "when setting Blosc clevel parameter\n"
    if compressionLevel < 0 || 9 < compressionLevel then
      invalid ("compression_level must be an integer between 0 (no compression) and 9 (more " ++
        "compression, more memory consumption) inclusive")
    else
      pure { s with compressionLevel }
  else if key = ascii "doshuffle" then
    match shuffles.lookup value with
    | some doShuffle => pure { s with doShuffle }
    | none           =>
      invalid ("Parameter doshuffle must be BLOSC_SHUFFLE, BLOSC_NOSHUFFLE or BLOSC_BITSHUFFLE")
  else if key = ascii "nthreads" then do
    let threads ← stringToInt32 value "when setting Blosc nthreads parameter\n"
    pure { s with threads }
  else if key = ascii "compressor" then
    if value ∈ compressors then
      pure { s with compressor := value }
    else
      invalid ("Parameter compressor must be blosclz (default), lz4, lz4hc, snappy, zlib, or zstd")
  else if key = ascii "blocksize" then do
    let blockSize ← stringToUInt64 value "when setting Blosc blocksize parameter\n"
    pure { s with blockSize }
  else if key = ascii "threshold" then do
    let thresholdSize ← stringToUInt64 value "when setting Blosc threshold parameter\n"
    pure { s with thresholdSize := max thresholdSize 128 }
  else
    pure s

def settings (parameters : Params) : Outcome Settings := parameters.foldlM Settings.set {}

-- The reader looks at the number of threads only.
def readerThreads (parameters : Params) : Outcome Int :=
  parameters.foldlM (fun threads (key, value) =>
    if key = ascii "nthreads" then
      stringToInt32 value "when setting Blosc nthreads parameter\n"
    else
      pure threads) 1

end Parameters

variable (lib : Library) (parameters : Params)

section Operate

structure Progress where
  buffer          : List Byte
  bufferOutOffset : Nat
  inputOffset     : Nat  := 0
  chunk           : Nat  := 0
  useMemcpy       : Bool := false

def typesize (type : DataType) : Nat :=
  if maxTypesize < getDataTypeSize type then 1 else getDataTypeSize type

def compressChunks (s : Settings) (type : DataType) (dataIn : List Byte) (sizeIn : Nat) :
    Nat → Progress → Outcome Progress
  | 0, _        => .error .outOfFuel
  | fuel + 1, p =>
    if p.inputOffset < sizeIn then do
      let inputChunkSize := min (sizeIn - p.inputOffset) maxBuffersize
      let maxChunkSize := inputChunkSize + maxOverhead
      let source ← slice dataIn p.inputOffset inputChunkSize
      let dest := (lib.compress s (typesize type) maxChunkSize source).getD []
      if 0 < dest.length then do
        let buffer ← put p.buffer p.bufferOutOffset dest
        compressChunks s type dataIn sizeIn fuel { p with
          buffer
          bufferOutOffset := p.bufferOutOffset + dest.length
          inputOffset     := p.inputOffset + inputChunkSize
          chunk           := (p.chunk + 1) % 2 ^ 32 }
      else
        pure { p with useMemcpy := true }
    else
      pure p

-- `DataHeader` with the number of the chunks.
def dataHeader (numberOfChunks : Nat) : List Byte := parameter 4 0 ++ parameter 4 numberOfChunks

def operate (blockCount : Dims) (type : DataType) (dataIn bufferOut : List Byte) :
    Outcome Applied := do
  let sizeIn := blockSize blockCount type
  let header := makeCommonHeader .blosc 1 ++ parameter 8 sizeIn ++ parameter 1 lib.version.1
    ++ parameter 1 lib.version.2.1 ++ parameter 1 lib.version.2.2
  let buffer ← put bufferOut 0 header
  let s ← settings parameters
  let buffer ← put buffer header.length (dataHeader 0)
  let bufferOutOffset := header.length + 8
  if sizeIn < s.thresholdSize then
    pure { size := 0, buffer, headerSize := bufferOutOffset }
  else if lib.setCompressor s.compressor then do
    let p ← compressChunks lib s type dataIn sizeIn (sizeIn + 1) { buffer, bufferOutOffset }
    if p.useMemcpy then
      pure { size := 0, buffer := p.buffer, headerSize := p.bufferOutOffset }
    else do
      let buffer ← put p.buffer header.length (dataHeader p.chunk)
      pure { size := p.bufferOutOffset, buffer, headerSize := p.bufferOutOffset }
  else
    .error (.thrown "Operator" "CompressBlosc" "Operate"
      ("blosc library linked does not support compressor " ++ text s.compressor))

end Operate

section InverseOperate

def versionInfo (version : Nat × Nat × Nat) : String :=
  " Data is compressed using BLOSC Version " ++ toString version.1 ++ "." ++
    toString version.2.1 ++ "." ++ toString version.2.2 ++
    ". Please make sure a compatible version is used for decompression."

structure Reading where
  dataOut           : List Byte
  inputOffset       : Nat := 0
  currentOutputSize : Nat := 0

-- The size of a chunk is in its own header, at the offset 12.
def decompressChunks (info : String) (threads : Int) (inputDataBuff : List Byte) (sizeOut : Nat) :
    Nat → Reading → Outcome Reading
  | 0, _        => .error .outOfFuel
  | fuel + 1, r =>
    if r.inputOffset < inputDataBuff.length then do
      let maxInputDataSize ← getParameter 4 inputDataBuff (r.inputOffset + 12)
      let outputChunkSize :=
        min ((sizeOut + (2 ^ 64 - r.currentOutputSize)) % 2 ^ 64) maxBuffersize
      let source ← slice inputDataBuff r.inputOffset maxInputDataSize
      -- a size of 2^31 or more is a negative number
      let dest := if maxInputDataSize < 2 ^ 31 then
          (lib.decompress (threads.bmod (2 ^ 16)) outputChunkSize source).getD []
        else
          []
      if 0 < dest.length then do
        let dataOut ← put r.dataOut r.currentOutputSize dest
        decompressChunks info threads inputDataBuff sizeOut fuel {
          dataOut
          inputOffset       := r.inputOffset + maxInputDataSize
          currentOutputSize := r.currentOutputSize + dest.length }
      else
        .error (.thrown "Operator" "CompressBlosc" "DecompressChunkedFormat"
          ("blosc decompress failed with zero buffer size. " ++ info))
    else
      pure r

-- What the function returns, and `bufferDecompressedSize` after it.
def decompressChunkedFormat (info : String) (bufferIn dataOut : List Byte) (sizeOut before : Nat) :
    Outcome (Nat × List Byte × Nat) := do
  let numChunks ← getParameter 4 bufferIn 4
  let inputDataBuff := bufferIn.drop 8
  if numChunks = 0 then
    pure (0, dataOut, inputDataBuff.length)
  else do
    let threads ← readerThreads parameters
    let r ← decompressChunks lib info threads inputDataBuff sizeOut (inputDataBuff.length + 1)
      { dataOut }
    pure (r.currentOutputSize, r.dataOut, before)

def decompressOldFormat (bufferIn dataOut : List Byte) (sizeOut before : Nat) :
    Outcome (Nat × List Byte × Nat) := do
  let threads ← readerThreads parameters
  match lib.decompress (threads.bmod (2 ^ 16)) sizeOut bufferIn with
  | some dest => do
    let dataOut ← put dataOut 0 dest
    pure (dest.length, dataOut, before)
  | none      => pure (2 ^ 64 - 1, dataOut, before)

def decompressV1 (before : Nat) (bufferIn dataOut : List Byte) : Outcome Inverted := do
  let sizeOut ← getParameter 8 bufferIn 0
  let major ← getParameter 1 bufferIn 8
  let minor ← getParameter 1 bufferIn 9
  let release ← getParameter 1 bufferIn 10
  let info := versionInfo (major, minor, release)
  let rest := bufferIn.drop 11
  if rest.length < 8 then
    .error (.thrown "Operator" "CompressBlosc" "InverseOperate"
      ("corrupted compressed buffer." ++ info))
  else do
    let format ← getParameter 4 rest 0
    let (size, dataOut, bufferDecompressedSize) ←
      if format = 0 then
        decompressChunkedFormat lib parameters info rest dataOut sizeOut before
      else
        decompressOldFormat lib parameters rest dataOut sizeOut before
    let decompressedSize := if size = 0 then bufferDecompressedSize else size
    if decompressedSize ≠ sizeOut then
      .error (.thrown "Operator" "CompressBlosc" "DecompressV1" info)
    else
      pure {
        size       := if size = 0 then 0 else sizeOut
        dataOut
        headerSize := (4 + (bufferIn.length + (2 ^ 64 - sizeOut))) % 2 ^ 64 }

-- `before` is what an earlier call has left in `bufferDecompressedSize`.
def inverseOperate (before : Nat) (bufferIn dataOut : List Byte) : Outcome Inverted := do
  let bufferVersion ← getParameter 1 bufferIn 1
  if bufferVersion = 1 then
    decompressV1 lib parameters before (bufferIn.drop 4) dataOut
  else if bufferVersion = 2 then
    pure { size := 0, dataOut, headerSize := 4 }
  else
    .error (.thrown "Operator" "CompressBlosc" "InverseOperate" "invalid blosc buffer version")

end InverseOperate

def compressBlosc (before : Nat) : Operator where
  typeEnum       := .blosc
  operate        := operate lib parameters
  inverseOperate := inverseOperate lib parameters before

end Operators.Blosc
