import Carbond.Bytes.Image
import Carbond.Common

/-! The structures of a whisper file, as a little-endian machine holds them, and their
conversion to and from network order. Floats and doubles are their bit patterns. -/
namespace Carbond.Whisper
open Bytes

def whisperHeaderSize : Nat := 16
def whisperArchiveSize : Nat := 12
def whisperPointSize : Nat := 12

structure Metadata where
  aggregationType : UInt32
  maxRetention : UInt32
  xFilesFactor : UInt32
  archiveCount : UInt32
  deriving DecidableEq, Repr

structure ArchiveInfo where
  offset : UInt32
  secondsPerPoint : UInt32
  points : UInt32
  deriving DecidableEq, Repr

structure ArchivePoint where
  timestamp : UInt32
  value : UInt64
  deriving DecidableEq, Repr

/-! ### Memory images -/

def word (n : UInt32) : List UInt8 := image 4 n.toNat
def doubleWord (n : UInt64) : List UInt8 := image 8 n.toNat

/-- Bytes that are missing count as zero: the memory read into was zeroed. -/
def wordAt (bytes : List UInt8) (pos : Nat) : UInt32 := UInt32.ofNat (number (readAt bytes pos 4))
def doubleWordAt (bytes : List UInt8) (pos : Nat) : UInt64 :=
  UInt64.ofNat (number (readAt bytes pos 8))

def Metadata.bytes (md : Metadata) : List UInt8 :=
  word md.aggregationType ++ word md.maxRetention ++ word md.xFilesFactor ++ word md.archiveCount

def Metadata.ofBytes (bytes : List UInt8) : Metadata :=
  ⟨wordAt bytes 0, wordAt bytes 4, wordAt bytes 8, wordAt bytes 12⟩

def ArchiveInfo.bytes (info : ArchiveInfo) : List UInt8 :=
  word info.offset ++ word info.secondsPerPoint ++ word info.points

def ArchiveInfo.ofBytes (bytes : List UInt8) : ArchiveInfo :=
  ⟨wordAt bytes 0, wordAt bytes 4, wordAt bytes 8⟩

/-- The structure is packed. -/
def ArchivePoint.bytes (point : ArchivePoint) : List UInt8 :=
  word point.timestamp ++ doubleWord point.value

def ArchivePoint.ofBytes (bytes : List UInt8) : ArchivePoint :=
  ⟨wordAt bytes 0, doubleWordAt bytes 4⟩

/-! ### Network order -/

def htonl (n : UInt32) : UInt32 := UInt32.ofNat (swap 4 n.toNat)
def htobe64 (n : UInt64) : UInt64 := UInt64.ofNat (swap 8 n.toNat)
def ntohl (n : UInt32) : UInt32 := htonl n
def be64toh (n : UInt64) : UInt64 := htobe64 n

def htonWhisperMetadata (md : Metadata) : Metadata where
  aggregationType := htonl md.aggregationType
  maxRetention := htonl md.maxRetention
  archiveCount := htonl md.archiveCount
  xFilesFactor := htonl md.xFilesFactor

def ntohWhisperMetadata (md : Metadata) : Metadata where
  aggregationType := ntohl md.aggregationType
  maxRetention := ntohl md.maxRetention
  archiveCount := ntohl md.archiveCount
  xFilesFactor := ntohl md.xFilesFactor

def htonArchiveInfo (info : ArchiveInfo) : ArchiveInfo where
  offset := htonl info.offset
  secondsPerPoint := htonl info.secondsPerPoint
  points := htonl info.points

def ntohArchiveInfo (info : ArchiveInfo) : ArchiveInfo where
  offset := ntohl info.offset
  secondsPerPoint := ntohl info.secondsPerPoint
  points := ntohl info.points

def htonArchivePoint (point : ArchivePoint) : ArchivePoint where
  timestamp := htonl point.timestamp
  value := htobe64 point.value

def ntohArchivePoint (point : ArchivePoint) : ArchivePoint where
  timestamp := ntohl point.timestamp
  value := be64toh point.value

/-- The size of an archive in bytes. -/
def archiveSize (info : ArchiveInfo) : UInt64 := (info.points * 12).toUInt64

/-- The last offset of an archive. -/
def archiveOffsetEnd (info : ArchiveInfo) : UInt32 :=
  (info.offset.toUInt64 + archiveSize info).toUInt32

@[simp] theorem archiveSize_toNat (info : ArchiveInfo) :
    (archiveSize info).toNat = (info.points * 12).toNat := UInt32.toNat_toUInt64 _

theorem archiveSize_lt (info : ArchiveInfo) : (archiveSize info).toNat < 2 ^ 32 := by
  rw [archiveSize_toNat]
  exact UInt32.toNat_lt _

theorem archiveOffsetEnd_toNat (info : ArchiveInfo) : (archiveOffsetEnd info).toNat =
    (info.offset.toNat + (archiveSize info).toNat) % 2 ^ 32 := by
  have low := info.offset.toNat_lt
  have small := archiveSize_lt info
  rw [archiveOffsetEnd, UInt64.toNat_toUInt32, UInt64.toNat_add, UInt32.toNat_toUInt64]
  omega

/-! ### Round trips -/

@[simp] theorem word_length (n : UInt32) : (word n).length = 4 := image_length 4 _

@[simp] theorem doubleWord_length (n : UInt64) : (doubleWord n).length = 8 := image_length 8 _

@[simp] theorem Metadata.bytes_length (md : Metadata) : md.bytes.length = 16 := by
  simp [Metadata.bytes]

@[simp] theorem ArchiveInfo.bytes_length (info : ArchiveInfo) : info.bytes.length = 12 := by
  simp [ArchiveInfo.bytes]

@[simp] theorem ArchivePoint.bytes_length (point : ArchivePoint) : point.bytes.length = 12 := by
  simp [ArchivePoint.bytes]

theorem wordAt_of_readAt (read : readAt bytes pos 4 = word n) : wordAt bytes pos = n := by
  rw [wordAt, read, word, number_image_of_lt n.toNat_lt, UInt32.ofNat_toNat]

theorem doubleWordAt_of_readAt (read : readAt bytes pos 8 = doubleWord n) :
    doubleWordAt bytes pos = n := by
  rw [doubleWordAt, read, doubleWord, number_image_of_lt n.toNat_lt, UInt64.ofNat_toNat]

theorem wordAt_append (front back : List UInt8) (n : UInt32) (sized : front.length = pos) :
    wordAt (front ++ word n ++ back) pos = n := by
  apply wordAt_of_readAt
  subst pos
  simp [readAt]

theorem doubleWordAt_append (front back : List UInt8) (n : UInt64) (sized : front.length = pos) :
    doubleWordAt (front ++ doubleWord n ++ back) pos = n := by
  apply doubleWordAt_of_readAt
  subst pos
  simp [readAt]

@[simp] theorem Metadata.ofBytes_bytes (md : Metadata) : Metadata.ofBytes md.bytes = md := by
  have first := wordAt_append [] (word md.maxRetention ++ word md.xFilesFactor ++
    word md.archiveCount) md.aggregationType rfl
  have second := wordAt_append (word md.aggregationType)
    (word md.xFilesFactor ++ word md.archiveCount) md.maxRetention (word_length _)
  have third := wordAt_append (word md.aggregationType ++ word md.maxRetention)
    (word md.archiveCount) md.xFilesFactor (show _ = 8 by simp)
  have fourth := wordAt_append
    (word md.aggregationType ++ word md.maxRetention ++ word md.xFilesFactor) []
    md.archiveCount (show _ = 12 by simp)
  simp only [List.nil_append, List.append_nil, List.append_assoc, List.length_nil]
    at first second third fourth
  simp only [Metadata.ofBytes, Metadata.bytes, List.append_assoc, first, second, third, fourth]

@[simp] theorem ArchiveInfo.ofBytes_bytes (info : ArchiveInfo) :
    ArchiveInfo.ofBytes info.bytes = info := by
  have first := wordAt_append [] (word info.secondsPerPoint ++ word info.points) info.offset rfl
  have second := wordAt_append (word info.offset) (word info.points) info.secondsPerPoint
    (word_length _)
  have third := wordAt_append (word info.offset ++ word info.secondsPerPoint) [] info.points
    (show _ = 8 by simp)
  simp only [List.nil_append, List.append_nil, List.append_assoc, List.length_nil]
    at first second third
  simp only [ArchiveInfo.ofBytes, ArchiveInfo.bytes, List.append_assoc, first, second, third]

@[simp] theorem ArchivePoint.ofBytes_bytes (point : ArchivePoint) :
    ArchivePoint.ofBytes point.bytes = point := by
  have first := wordAt_append [] (doubleWord point.value) point.timestamp rfl
  have second := doubleWordAt_append (word point.timestamp) [] point.value (word_length _)
  simp only [List.nil_append, List.append_nil, List.length_nil] at first second
  simp only [ArchivePoint.ofBytes, ArchivePoint.bytes, first, second]

@[simp] theorem ntohl_htonl (n : UInt32) : ntohl (htonl n) = n := by
  have small : swap 4 n.toNat < 2 ^ 32 := swap_lt 4 _
  apply UInt32.toNat_inj.mp
  simp only [ntohl, htonl, UInt32.toNat_ofNat', Nat.mod_eq_of_lt small,
    swap_swap (show n.toNat < 256 ^ 4 from n.toNat_lt), Nat.mod_eq_of_lt n.toNat_lt]

@[simp] theorem be64toh_htobe64 (n : UInt64) : be64toh (htobe64 n) = n := by
  have small : swap 8 n.toNat < 2 ^ 64 := swap_lt 8 _
  apply UInt64.toNat_inj.mp
  simp only [be64toh, htobe64, UInt64.toNat_ofNat', Nat.mod_eq_of_lt small,
    swap_swap (show n.toNat < 256 ^ 8 from n.toNat_lt), Nat.mod_eq_of_lt n.toNat_lt]

theorem number_readAt_lt (bytes : List UInt8) (pos width : Nat) :
    number (readAt bytes pos width) < 256 ^ width := by
  have bound := number_lt (readAt bytes pos width)
  refine Nat.lt_of_lt_of_le bound (Nat.pow_le_pow_right (by decide) ?_)
  rw [readAt_length]
  exact Nat.min_le_left _ _

theorem ntohl_wordAt (bytes : List UInt8) (pos : Nat) :
    (ntohl (wordAt bytes pos)).toNat = swap 4 (number (readAt bytes pos 4)) := by
  have word : number (readAt bytes pos 4) < 2 ^ 32 := number_readAt_lt bytes pos 4
  have swapped : swap 4 (number (readAt bytes pos 4)) < 2 ^ 32 := swap_lt 4 _
  rw [ntohl, htonl, wordAt, UInt32.toNat_ofNat', UInt32.toNat_ofNat', Nat.mod_eq_of_lt word,
    Nat.mod_eq_of_lt swapped]

theorem be64toh_doubleWordAt (bytes : List UInt8) (pos : Nat) :
    (be64toh (doubleWordAt bytes pos)).toNat = swap 8 (number (readAt bytes pos 8)) := by
  have word : number (readAt bytes pos 8) < 2 ^ 64 := number_readAt_lt bytes pos 8
  have swapped : swap 8 (number (readAt bytes pos 8)) < 2 ^ 64 := swap_lt 8 _
  rw [be64toh, htobe64, doubleWordAt, UInt64.toNat_ofNat', UInt64.toNat_ofNat',
    Nat.mod_eq_of_lt word, Nat.mod_eq_of_lt swapped]

@[simp] theorem ntoh_hton_metadata (md : Metadata) :
    ntohWhisperMetadata (htonWhisperMetadata md) = md := by
  simp [ntohWhisperMetadata, htonWhisperMetadata]

@[simp] theorem ntoh_hton_archiveInfo (info : ArchiveInfo) :
    ntohArchiveInfo (htonArchiveInfo info) = info := by
  simp [ntohArchiveInfo, htonArchiveInfo]

@[simp] theorem ntoh_hton_archivePoint (point : ArchivePoint) :
    ntohArchivePoint (htonArchivePoint point) = point := by
  simp [ntohArchivePoint, htonArchivePoint]

end Carbond.Whisper
