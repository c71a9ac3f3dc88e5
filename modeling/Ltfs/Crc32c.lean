import Mathlib.Algebra.Order.Ring.Nat

namespace Ltfs.Crc32c

inductive Arch where
  | i386
  | x8664
  deriving DecidableEq, Repr

def calcSize : Arch → Nat
  | .i386 => 4
  | .x8664 => 8

/-- The build (with `__SSE42__`, for one of the two architectures) and what `cpuid` gives in `ecx`. -/
structure Cpu where
  sse42 : Option Arch
  ecx : BitVec 32

/-- The bit that is tested is bit 19. -/
def isSse42Supported (cpu : Cpu) : Bool :=
  cpu.sse42.isSome && cpu.ecx &&& 0x00080000 != 0

def crc32cTable : List (BitVec 32) :=
  [0x00000000, 0xF26B8303, 0xE13B70F7, 0x1350F3F4, 0xC79A971F, 0x35F1141C, 0x26A1E7E8, 0xD4CA64EB,
    0x8AD958CF, 0x78B2DBCC, 0x6BE22838, 0x9989AB3B, 0x4D43CFD0, 0xBF284CD3, 0xAC78BF27, 0x5E133C24,
    0x105EC76F, 0xE235446C, 0xF165B798, 0x030E349B, 0xD7C45070, 0x25AFD373, 0x36FF2087, 0xC494A384,
    0x9A879FA0, 0x68EC1CA3, 0x7BBCEF57, 0x89D76C54, 0x5D1D08BF, 0xAF768BBC, 0xBC267848, 0x4E4DFB4B,
    0x20BD8EDE, 0xD2D60DDD, 0xC186FE29, 0x33ED7D2A, 0xE72719C1, 0x154C9AC2, 0x061C6936, 0xF477EA35,
    0xAA64D611, 0x580F5512, 0x4B5FA6E6, 0xB93425E5, 0x6DFE410E, 0x9F95C20D, 0x8CC531F9, 0x7EAEB2FA,
    0x30E349B1, 0xC288CAB2, 0xD1D83946, 0x23B3BA45, 0xF779DEAE, 0x05125DAD, 0x1642AE59, 0xE4292D5A,
    0xBA3A117E, 0x4851927D, 0x5B016189, 0xA96AE28A, 0x7DA08661, 0x8FCB0562, 0x9C9BF696, 0x6EF07595,
    0x417B1DBC, 0xB3109EBF, 0xA0406D4B, 0x522BEE48, 0x86E18AA3, 0x748A09A0, 0x67DAFA54, 0x95B17957,
    0xCBA24573, 0x39C9C670, 0x2A993584, 0xD8F2B687, 0x0C38D26C, 0xFE53516F, 0xED03A29B, 0x1F682198,
    0x5125DAD3, 0xA34E59D0, 0xB01EAA24, 0x42752927, 0x96BF4DCC, 0x64D4CECF, 0x77843D3B, 0x85EFBE38,
    0xDBFC821C, 0x2997011F, 0x3AC7F2EB, 0xC8AC71E8, 0x1C661503, 0xEE0D9600, 0xFD5D65F4, 0x0F36E6F7,
    0x61C69362, 0x93AD1061, 0x80FDE395, 0x72966096, 0xA65C047D, 0x5437877E, 0x4767748A, 0xB50CF789,
    0xEB1FCBAD, 0x197448AE, 0x0A24BB5A, 0xF84F3859, 0x2C855CB2, 0xDEEEDFB1, 0xCDBE2C45, 0x3FD5AF46,
    0x7198540D, 0x83F3D70E, 0x90A324FA, 0x62C8A7F9, 0xB602C312, 0x44694011, 0x5739B3E5, 0xA55230E6,
    0xFB410CC2, 0x092A8FC1, 0x1A7A7C35, 0xE811FF36, 0x3CDB9BDD, 0xCEB018DE, 0xDDE0EB2A, 0x2F8B6829,
    0x82F63B78, 0x709DB87B, 0x63CD4B8F, 0x91A6C88C, 0x456CAC67, 0xB7072F64, 0xA457DC90, 0x563C5F93,
    0x082F63B7, 0xFA44E0B4, 0xE9141340, 0x1B7F9043, 0xCFB5F4A8, 0x3DDE77AB, 0x2E8E845F, 0xDCE5075C,
    0x92A8FC17, 0x60C37F14, 0x73938CE0, 0x81F80FE3, 0x55326B08, 0xA759E80B, 0xB4091BFF, 0x466298FC,
    0x1871A4D8, 0xEA1A27DB, 0xF94AD42F, 0x0B21572C, 0xDFEB33C7, 0x2D80B0C4, 0x3ED04330, 0xCCBBC033,
    0xA24BB5A6, 0x502036A5, 0x4370C551, 0xB11B4652, 0x65D122B9, 0x97BAA1BA, 0x84EA524E, 0x7681D14D,
    0x2892ED69, 0xDAF96E6A, 0xC9A99D9E, 0x3BC21E9D, 0xEF087A76, 0x1D63F975, 0x0E330A81, 0xFC588982,
    0xB21572C9, 0x407EF1CA, 0x532E023E, 0xA145813D, 0x758FE5D6, 0x87E466D5, 0x94B49521, 0x66DF1622,
    0x38CC2A06, 0xCAA7A905, 0xD9F75AF1, 0x2B9CD9F2, 0xFF56BD19, 0x0D3D3E1A, 0x1E6DCDEE, 0xEC064EED,
    0xC38D26C4, 0x31E6A5C7, 0x22B65633, 0xD0DDD530, 0x0417B1DB, 0xF67C32D8, 0xE52CC12C, 0x1747422F,
    0x49547E0B, 0xBB3FFD08, 0xA86F0EFC, 0x5A048DFF, 0x8ECEE914, 0x7CA56A17, 0x6FF599E3, 0x9D9E1AE0,
    0xD3D3E1AB, 0x21B862A8, 0x32E8915C, 0xC083125F, 0x144976B4, 0xE622F5B7, 0xF5720643, 0x07198540,
    0x590AB964, 0xAB613A67, 0xB831C993, 0x4A5A4A90, 0x9E902E7B, 0x6CFBAD78, 0x7FAB5E8C, 0x8DC0DD8F,
    0xE330A81A, 0x115B2B19, 0x020BD8ED, 0xF0605BEE, 0x24AA3F05, 0xD6C1BC06, 0xC5914FF2, 0x37FACCF1,
    0x69E9F0D5, 0x9B8273D6, 0x88D28022, 0x7AB90321, 0xAE7367CA, 0x5C18E4C9, 0x4F48173D, 0xBD23943E,
    0xF36E6F75, 0x0105EC76, 0x12551F82, 0xE03E9C81, 0x34F4F86A, 0xC69F7B69, 0xD5CF889D, 0x27A40B9E,
    0x79B737BA, 0x8BDCB4B9, 0x988C474D, 0x6AE7C44E, 0xBE2DA0A5, 0x4C4623A6, 0x5F16D052, 0xAD7D5351]

def crc32cCalc (c : BitVec 8) (reg : BitVec 32) : BitVec 32 :=
  (reg >>> 8) ^^^ crc32cTable.getD (c.setWidth 32 ^^^ (reg &&& 0xff)).toNat 0

/-- The generator polynomial, less the term of degree 32. -/
def polynomial : BitVec 32 := 0x1EDC6F41

def mod2Step (r : BitVec 32) (b : Bool) : BitVec 32 :=
  (r <<< 1) ^^^ (if r.msb then polynomial else 0) ^^^ (BitVec.ofBool b).setWidth 32

def bitsMsb {w : Nat} (v : BitVec w) : List Bool :=
  (List.range w).map v.getMsbD

def bitsLsb {w : Nat} (v : BitVec w) : List Bool :=
  (List.range w).map v.getLsbD

/-- `MOD2` of the instruction's definition: long division by `11EDC6F41H`, bit by bit from the top. -/
def mod2 {w : Nat} (v : BitVec w) : BitVec 32 :=
  (bitsMsb v).foldl mod2Step 0

/-- The `CRC32` instruction with a source of `w` bits. -/
def mmCrc32 {w : Nat} (crc : BitVec 32) (src : BitVec w) : BitVec 32 :=
  let temp1 := src.reverse
  let temp2 := crc.reverse
  let temp3 := temp1.setWidth (w + 32) <<< 32
  let temp4 := temp2.setWidth (w + 32) <<< w
  let temp5 := temp3 ^^^ temp4
  let temp6 := mod2 temp5
  temp6.reverse

def mmCrc32U8 (crc : BitVec 32) (v : BitVec 8) : BitVec 32 :=
  mmCrc32 crc v

/-- `_mm_crc32_u32` or `_mm_crc32_u64`. The register is as wide as the source. -/
def mmCrc32Native (arch : Arch) (crc v : BitVec (8 * calcSize arch)) : BitVec (8 * calcSize arch) :=
  (mmCrc32 (crc.setWidth 32) v).setWidth (8 * calcSize arch)

/-- The bytes that the pointer stands at, read as one little-endian word. -/
def loadWord (w : Nat) (bs : List (BitVec 8)) : BitVec w :=
  bs.foldr (fun b v => b.setWidth w ||| (v <<< 8)) 0

/-- The bytes up to a multiple of `CALC_SIZE`. What is left is returned with the register. -/
def alignLoop (size : Nat) : Nat → List (BitVec 8) → BitVec 32 → List (BitVec 8) × BitVec 32
  | _, [], reg => ([], reg)
  | addr, b :: bs, reg =>
    if addr % size > 0 then alignLoop size (addr + 1) bs (mmCrc32U8 reg b) else (b :: bs, reg)

def wordLoop (arch : Arch) (fuel : Nat) (bs : List (BitVec 8)) (reg : BitVec (8 * calcSize arch)) :
    List (BitVec 8) × BitVec (8 * calcSize arch) :=
  match fuel with
  | 0 => (bs, reg)
  | fuel + 1 =>
    if calcSize arch ≤ bs.length then
      wordLoop arch fuel (bs.drop (calcSize arch))
        (mmCrc32Native arch reg (loadWord (8 * calcSize arch) (bs.take (calcSize arch))))
    else (bs, reg)

def crc32cSse (arch : Arch) (addr : Nat) (bs : List (BitVec 8)) : BitVec 32 :=
  let aligned := alignLoop (calcSize arch) addr bs 0xffffffff
  let native := wordLoop arch aligned.1.length aligned.1 (aligned.2.setWidth (8 * calcSize arch))
  native.1.foldl mmCrc32U8 (native.2.setWidth 32)

/-- What the build has compiled into the branch for the instruction. -/
def sseBranch (cpu : Cpu) (addr : Nat) (bs : List (BitVec 8)) : BitVec 32 :=
  match cpu.sse42 with
  | some arch => crc32cSse arch addr bs
  | none => 0xffffffff

def crc32c (cpu : Cpu) (addr : Nat) (buf : List (BitVec 8)) (n : Nat) : BitVec 32 :=
  ~~~ (if isSse42Supported cpu then sseBranch cpu addr (buf.take n)
    else (buf.take n).foldl (fun reg c => crc32cCalc c reg) 0xffffffff)

def copyStep (s : List (BitVec 8) × BitVec 32) (c : BitVec 8) : List (BitVec 8) × BitVec 32 :=
  (s.1 ++ [c], crc32cCalc c s.2)

/-- The bytes put at `dest`, and the CRC. -/
def memcpyCrc32c (cpu : Cpu) (addr : Nat) (src : List (BitVec 8)) (n : Nat) :
    List (BitVec 8) × BitVec 32 :=
  if isSse42Supported cpu then (src.take n, ~~~ sseBranch cpu addr (src.take n))
  else
    let copied := (src.take n).foldl copyStep ([], 0xffffffff)
    (copied.1, ~~~ copied.2)

def crcBytes (reg : BitVec 32) : List (BitVec 8) :=
  [(reg &&& 0xff).setWidth 8, ((reg >>> 8) &&& 0xff).setWidth 8, ((reg >>> 16) &&& 0xff).setWidth 8,
    ((reg >>> 24) &&& 0xff).setWidth 8]

def memcpyCrc32cEnc (cpu : Cpu) (addr : Nat) (src : List (BitVec 8)) (n : Nat) : List (BitVec 8) :=
  let copy := memcpyCrc32c cpu addr src n
  copy.1 ++ crcBytes copy.2

/-- The four bytes behind the data are written over. -/
def crc32cEnc (cpu : Cpu) (addr : Nat) (buf : List (BitVec 8)) (n : Nat) : List (BitVec 8) :=
  buf.take n ++ crcBytes (crc32c cpu addr buf n) ++ buf.drop (n + 4)

def crcAt (buf : List (BitVec 8)) (n : Nat) : BitVec 32 :=
  let octet := fun k => (buf.getD (n + k) 0).setWidth 32
  octet 0 ||| (octet 1 <<< 8) ||| (octet 2 <<< 16) ||| (octet 3 <<< 24)

/-- A `size_t` returned as an `int`. -/
def toInt (n : Nat) : Int :=
  (BitVec.ofNat 32 n).toInt

theorem toInt_nonneg (n : Nat) : 0 ≤ toInt n ↔ n % 2 ^ 32 < 2 ^ 31 := by
  rw [toInt, BitVec.toInt, BitVec.toNat_ofNat]
  split <;> omega

def verdict (reg crc : BitVec 32) (n : Nat) : Int :=
  if crc != reg then -1 else toInt n

def memcpyCrc32cCheck (cpu : Cpu) (addr : Nat) (src : List (BitVec 8)) (n : Nat) :
    List (BitVec 8) × Int :=
  let copy := memcpyCrc32c cpu addr src n
  (copy.1, verdict copy.2 (crcAt src n) n)

def crc32cCheck (cpu : Cpu) (addr : Nat) (buf : List (BitVec 8)) (n : Nat) : Int :=
  verdict (crc32c cpu addr buf n) (crcAt buf n) n

end Ltfs.Crc32c
