import ProtoDune.Lib.Fields

/-!
# `Headers.hh`, `TpcRecords.hh`: the headers of an event fragment

Each record of a fragment begins with a header of one of three formats, which has its
length in words of 64 bits. The bridge word of a header holds what is specific to the
record.

Main results:

* `Header1.n64_compose`, `Header2.n64_compose` — the length read back from a header.
* `Header0.length_compose`, `Header0.bridge_compose` — the same of the event header.
* `Stream.left_compose`, `Toc.count_construct` — the fields of the bridge words.
-/

namespace ProtoDune.Daq

open BitFields (Field union)

/-! ## The formats -/

namespace Header0

def FormatField : Field := ⟨4, 0⟩
def TypeField : Field := ⟨4, 4⟩
def LengthField : Field := ⟨24, 8⟩
def NAux64Field : Field := ⟨4, 32⟩
def SubTypeField : Field := ⟨4, 36⟩
def BridgeField : Field := ⟨24, 40⟩

/-- `Header0::compose` -/
def compose (type subtype bridge naux64 n64 : Nat) : Nat :=
  union [(FormatField, 0), (TypeField, type), (LengthField, n64), (SubTypeField, subtype),
    (NAux64Field, naux64), (BridgeField, bridge)]

/-- `Header0::length` -/
def length (w64 : Nat) : Nat := LengthField.extract w64

end Header0

namespace Header1

def FormatField : Field := ⟨4, 0⟩
def TypeField : Field := ⟨4, 4⟩
def LengthField : Field := ⟨24, 8⟩
def BridgeField : Field := ⟨32, 32⟩

/-- `Header1::compose` -/
def compose (type n64 bridge : Nat) : Nat :=
  union [(FormatField, 1), (TypeField, type), (LengthField, n64), (BridgeField, bridge)]

/-- `Header1::type` -/
def type (w64 : Nat) : Nat := TypeField.extract w64

/-- `Header1::n64` -/
def n64 (w64 : Nat) : Nat := LengthField.extract w64

/-- `Header1::bridge` -/
def bridge (w64 : Nat) : Nat := BridgeField.extract w64

end Header1

namespace Header2

def FormatField : Field := ⟨4, 0⟩
def TypeField : Field := ⟨4, 4⟩
def LengthField : Field := ⟨12, 8⟩
def BridgeField : Field := ⟨12, 20⟩

/-- `Header2::compose` -/
def compose (type n64 bridge : Nat) : Nat :=
  union [(FormatField, 2), (TypeField, type), (LengthField, n64), (BridgeField, bridge)]

/-- `Header2::type` -/
def type (w32 : Nat) : Nat := TypeField.extract w32

/-- `Header2::n64` -/
def n64 (w32 : Nat) : Nat := LengthField.extract w32

/-- `Header2::bridge` -/
def bridge (w32 : Nat) : Nat := BridgeField.extract w32

end Header2

/-- `Trailer::compose`: the complement of the header, in 64 bits. -/
def Trailer.compose (header : Nat) : Nat := 2 ^ 64 - 1 - header

theorem Trailer.compose_lt (header : Nat) : Trailer.compose header < 2 ^ 64 := by
  unfold Trailer.compose
  omega

/-! ## The event header -/

namespace fragment

/-- `fragment::Pattern` -/
def Pattern : Nat := 0x8b309e

/-- `fragment::Type::Data` -/
def TypeData : Nat := 2

namespace RecType

def TpcNormal : Nat := 2
def TpcDamaged : Nat := 3

end RecType

/-- `sizeof (Identifier) / sizeof (uint64_t)` -/
def Identifier.n64 : Nat := 2

namespace Identifier

def FormatField : Field := ⟨4, 0⟩
def TypeField : Field := ⟨4, 4⟩
def Src0Field : Field := ⟨12, 8⟩
def Src1Field : Field := ⟨12, 20⟩
def SequenceField : Field := ⟨32, 32⟩

/-- `Identifier::compose`, with two sources. -/
def compose (type src0 src1 sequence : Nat) : Nat :=
  union [(FormatField, 1), (TypeField, type), (Src0Field, src0), (Src1Field, src1),
    (SequenceField, sequence)]

end Identifier

/-- The first word of `Header<Type::Data>::construct`. -/
def Header.compose (rectype n64 : Nat) : Nat :=
  Header0.compose TypeData rectype Pattern Identifier.n64 n64

end fragment

/-! ## The records of a contributor -/

namespace Stream

namespace RecType

def Toc : Nat := 1
def Ranges : Nat := 2
def Packets : Nat := 3

end RecType

namespace Bridge

def FormatField : Field := ⟨4, 0⟩
def CsfField : Field := ⟨12, 4⟩
def LeftField : Field := ⟨8, 16⟩
def StatusField : Field := ⟨8, 24⟩

/-- `Stream::Bridge::compose` -/
def compose (csf left status : Nat) : Nat :=
  union [(FormatField, 0), (CsfField, csf), (LeftField, left), (StatusField, status)]

/-- `Stream::Bridge::getStatus` -/
def getStatus (bridge : Nat) : Nat := StatusField.extract bridge

end Bridge

/-- `Stream::construct` -/
def construct (type n64 bridge : Nat) : Nat := Header1.compose type n64 bridge

/-- `Stream::getStatus` -/
def getStatus (header : Nat) : Nat := Bridge.getStatus (Header1.bridge header)

end Stream

/-- The header of `Ranges::construct`, of format 0. -/
def Ranges.construct (n64 : Nat) : Nat := Header2.compose Stream.RecType.Ranges n64 0

namespace Toc

def TocFormatField : Field := ⟨4, 0⟩
def CountField : Field := ⟨8, 4⟩

/-- The header of `Toc::construct`. -/
def construct (pktCnt size : Nat) : Nat :=
  Header2.compose Stream.RecType.Toc size (union [(TocFormatField, 0), (CountField, pktCnt)])

namespace Packet

def FormatField : Field := ⟨4, 0⟩
def TypeField : Field := ⟨4, 4⟩
def Offset64Field : Field := ⟨24, 8⟩

/-- `TocBody::Packet::compose` -/
def compose (type format offset : Nat) : Nat :=
  union [(FormatField, format), (TypeField, type), (Offset64Field, offset)]

end Packet

end Toc

/-- `Packet::construct` -/
def Packet.construct (n64 : Nat) : Nat := Header1.compose Stream.RecType.Packets n64 0

/-! ## The fields read back -/

section Fields

open BitFields

namespace Header0

variable {type subtype bridge naux64 n64 : Nat}

theorem length_compose (h : n64 < 2 ^ 24) :
    length (compose type subtype bridge naux64 n64) = n64 :=
  extract_union [_, _] [_, _, _] h rfl rfl

theorem bridge_compose (h : bridge < 2 ^ 24) :
    BridgeField.extract (compose type subtype bridge naux64 n64) = bridge :=
  extract_union [_, _, _, _, _] [] h rfl rfl

theorem compose_lt : compose type subtype bridge naux64 n64 < 2 ^ 64 := union_lt rfl

end Header0

namespace Header1

variable {t n bridgeWord : Nat}

theorem type_compose (h : t < 2 ^ 4) : type (compose t n bridgeWord) = t :=
  extract_union [_] [_, _] h rfl rfl

theorem n64_compose (h : n < 2 ^ 24) : n64 (compose t n bridgeWord) = n :=
  extract_union [_, _] [_] h rfl rfl

theorem bridge_compose (h : bridgeWord < 2 ^ 32) : bridge (compose t n bridgeWord) = bridgeWord :=
  extract_union [_, _, _] [] h rfl rfl

theorem compose_lt : compose t n bridgeWord < 2 ^ 64 := union_lt rfl

end Header1

namespace Header2

variable {t n bridgeWord : Nat}

theorem type_compose (h : t < 2 ^ 4) : type (compose t n bridgeWord) = t :=
  extract_union [_] [_, _] h rfl rfl

theorem n64_compose (h : n < 2 ^ 12) : n64 (compose t n bridgeWord) = n :=
  extract_union [_, _] [_] h rfl rfl

theorem bridge_compose (h : bridgeWord < 2 ^ 12) : bridge (compose t n bridgeWord) = bridgeWord :=
  extract_union [_, _, _] [] h rfl rfl

theorem compose_lt : compose t n bridgeWord < 2 ^ 32 := union_lt rfl

end Header2

/-- `left` of a bridge word. -/
theorem Stream.left_compose {csf left status : Nat} (h : left < 2 ^ 8) :
    Stream.Bridge.LeftField.extract (Stream.Bridge.compose csf left status) = left :=
  extract_union [_, _] [_] h rfl rfl

theorem Stream.bridge_lt {csf left status : Nat} :
    Stream.Bridge.compose csf left status < 2 ^ 32 := union_lt rfl

/-- The number of packets is in the highest byte of the header. -/
theorem Toc.count_construct {pktCnt size : Nat} (h : pktCnt < 2 ^ 8) :
    Toc.CountField.extract (Header2.bridge (Toc.construct pktCnt size)) = pktCnt := by
  have hbridge : union [(Toc.TocFormatField, 0), (Toc.CountField, pktCnt)] < 2 ^ 12 := union_lt rfl
  rw [Toc.construct, Header2.bridge_compose hbridge]
  exact extract_union [_] [] h rfl rfl

theorem Toc.offset_compose {type format offset : Nat} (h : offset < 2 ^ 24) :
    Toc.Packet.Offset64Field.extract (Toc.Packet.compose type format offset) = offset :=
  extract_union [_, _] [] h rfl rfl

theorem Toc.packet_lt {type format offset : Nat} :
    Toc.Packet.compose type format offset < 2 ^ 32 := union_lt rfl

end Fields

end ProtoDune.Daq
