import Adios2.Core.Operator

-- The operator that compresses with bzip2: a header, a table of the batches, and the batches.

namespace Operators.BZIP2

open Bytes CString BP5 Helper

def defaultMaxFileBatchSize : Nat := 2147483648 - 102400

-- What the functions of the library return when they fail.
inductive Status
  | configError
  | paramError
  | memError
  | outbuffFull
  | dataError
  | dataErrorMagic
  | unexpectedEof
  deriving DecidableEq, Repr

structure Settings where
  blockSize100k : Int := 1
  verbosity     : Int := 0
  workFactor    : Int := 0
  deriving DecidableEq, Repr

-- `BZ2_bzBuffToBuffCompress` and `BZ2_bzBuffToBuffDecompress`, with the room at the destination.
structure Library where
  compress   : Settings → (destLen : Nat) → (source : List Byte) → Except Status (List Byte)
  decompress : (destLen : Nat) → (source : List Byte) → Except Status (List Byte)

def checkStatus (status : Status) (hint : String) : Fault :=
  let thrown (message : String) : Fault :=
    .thrown "Operator" "CompressBZIP2" "CheckStatus" (message ++ hint)
  match status with
  | .configError    => thrown "BZ_CONFIG_ERROR, BZIP2 library is not configured correctly"
  | .paramError     => thrown "BZ_PARAM_ERROR bufferOut stream might be null"
  | .memError       => thrown "BZ_MEM_ERROR BZIP2 detected insufficient memory "
  | .outbuffFull    =>
    thrown "BZ_OUTBUFF_FULL BZIP2 detected size of compressed data is larger than destination length "
  | .dataError      =>
    thrown "BZ_DATA_ERROR, BZIP2 library detected integrity errors in compressed data "
  | .dataErrorMagic =>
    thrown "BZ_DATA_ERROR_MAGIC, BZIP2 library detected wrong magic numbers in compressed data "
  | .unexpectedEof  =>
    thrown "BZ_UNEXPECTED_EOF, BZIP2 library detected unexpected end of compressed data "

def checked (result : Except Status (List Byte)) (hint : String) : Outcome (List Byte) :=
  match result with
  | .ok bytes     => .ok bytes
  | .error status => .error (checkStatus status hint)

def batchHint (call : String) (b : Nat) : String :=
  "in call to ADIOS2 BZIP2 " ++ call ++ " batch " ++ toString b ++ "\n"

variable (lib : Library) (parameters : Params)

section Operate

def settings (type : DataType) : Outcome Settings :=
  if parameters.isEmpty then
    pure {}
  else do
    let hint := " in call to CompressBZIP2 Compress " ++ typeName type ++ "\n"
    let blockSize100k ← setParameterValueInt (ascii "blockSize100k") parameters 1 hint
    let verbosity ← setParameterValueInt (ascii "verbosity") parameters 0 hint
    let workFactor ← setParameterValueInt (ascii "workFactor") parameters 0 hint
    if blockSize100k < 1 || 9 < blockSize100k then
      .error (.thrown "Operator" "CompressBZIP2" "Operate"
        ("BlockSize100K must be an integer between 1 (less compression, less memory) and 9 " ++
          "(more compression, more memory) inclusive, " ++ hint))
    else
      pure { blockSize100k, verbosity, workFactor }

-- The offsets have 32 bits.
structure Progress where
  buffer          : List Byte
  sourceOffset    : Nat := 0
  batchInfoOffset : Nat
  destOffset      : Nat

def batchSize (size batches b : Nat) : Nat :=
  if b = batches - 1 then size % defaultMaxFileBatchSize else defaultMaxFileBatchSize

def compressBatch (s : Settings) (dataIn : List Byte) (sizeIn batches : Nat) (p : Progress)
    (b : Nat) : Outcome Progress := do
  let sourceLen := batchSize sizeIn batches b % 2 ^ 32
  let source ← slice dataIn p.sourceOffset sourceLen
  let dest ← checked (lib.compress s sourceLen source) (batchHint "Compress" b)
  let destLen := dest.length
  let buffer ← put p.buffer p.destOffset dest
  let buffer ← put buffer p.batchInfoOffset
    (parameter 4 p.sourceOffset ++ parameter 4 sourceLen ++ parameter 4 p.destOffset
      ++ parameter 4 destLen)
  pure {
    buffer
    sourceOffset    := (p.sourceOffset + sourceLen) % 2 ^ 32
    batchInfoOffset := (p.batchInfoOffset + 16) % 2 ^ 32
    destOffset      := (p.destOffset + destLen) % 2 ^ 32 }

def operate (blockCount : Dims) (type : DataType) (dataIn bufferOut : List Byte) :
    Outcome Applied := do
  let sizeIn := blockSize blockCount type
  let batches := sizeIn / defaultMaxFileBatchSize + 1
  let header := makeCommonHeader .bzip2 1 ++ parameter 8 sizeIn ++ parameter 8 batches
  let buffer ← put bufferOut 0 header
  let s ← settings parameters type
  let p ← (List.range batches).foldlM (compressBatch lib s dataIn sizeIn batches) {
    buffer
    batchInfoOffset := header.length
    destOffset      := (header.length + batches * 16) % 2 ^ 32 }
  pure { size := p.destOffset, buffer := p.buffer }

end Operate

section InverseOperate

structure Reading where
  dataOut         : List Byte
  bufferInOffset  : Nat
  expectedSizeOut : Nat := 0

def decompressBatch (bufferIn : List Byte) (sizeOut batches : Nat) (r : Reading) (b : Nat) :
    Outcome Reading := do
  let destOffset ← getParameter 4 bufferIn r.bufferInOffset
  let destLen := batchSize sizeOut batches b % 2 ^ 32
  let sourceOffset ← getParameter 4 bufferIn (r.bufferInOffset + 8)
  let sourceLen ← getParameter 4 bufferIn (r.bufferInOffset + 12)
  let source ← slice bufferIn sourceOffset sourceLen
  let dest ← checked (lib.decompress destLen source) (batchHint "Decompress" b)
  let dataOut ← put r.dataOut destOffset dest
  pure {
    dataOut
    bufferInOffset  := r.bufferInOffset + 16
    expectedSizeOut := (r.expectedSizeOut + dest.length) % 2 ^ 64 }

def decompressV1 (bufferIn dataOut : List Byte) : Outcome Inverted := do
  let sizeOut ← getParameter 8 bufferIn 4
  let batches ← getParameter 8 bufferIn 12
  let r ← (List.range batches).foldlM (decompressBatch lib bufferIn sizeOut batches)
    { dataOut, bufferInOffset := 20 }
  if r.expectedSizeOut ≠ sizeOut then
    .error (.thrown "Operator" "CompressBZIP2" "DecompressV1" "corrupted bzip2 buffer")
  else
    pure { size := sizeOut, dataOut := r.dataOut }

def inverseOperate (bufferIn dataOut : List Byte) : Outcome Inverted := do
  let bufferVersion ← getParameter 1 bufferIn 1
  if bufferVersion = 1 then
    decompressV1 lib bufferIn dataOut
  else if bufferVersion = 2 then
    pure { size := 0, dataOut }
  else
    .error (.thrown "Operator" "CompressBZIP2" "InverseOperate" "invalid bzip2 buffer version")

end InverseOperate

def compressBZIP2 : Operator where
  typeEnum       := .bzip2
  operate        := operate lib parameters
  inverseOperate := inverseOperate lib

end Operators.BZIP2
