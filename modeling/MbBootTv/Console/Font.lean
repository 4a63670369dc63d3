import Mathlib.Algebra.Group.Nat.Defs

/-!
# The font (`fontx16.h`)

One bitmap holds the glyphs of the characters from 0x21 to 0x7E side by side, with 4 bits a pixel
and 789 pixels a row.
-/

namespace MbBootTv

/-- `waStarts`: the column where the glyph of each character starts, and the end. -/
def waStarts : List Nat :=
  [0, 4, 12, 20, 29, 42, 53, 56, 62, 67, 73, 81, 85, 91, 95, 100, 109, 117, 125, 133, 142, 149,
    158, 166, 174, 184, 189, 193, 202, 211, 219, 229, 243, 254, 265, 276, 288, 297, 306, 318, 330,
    333, 343, 353, 362, 376, 386, 398, 407, 420, 430, 440, 449, 460, 470, 484, 495, 505, 514, 518,
    523, 529, 535, 546, 550, 559, 568, 576, 585, 594, 600, 608, 618, 621, 626, 635, 639, 652, 662,
    671, 680, 690, 696, 704, 709, 718, 727, 738, 747, 756, 763, 769, 774, 779, 788]

/-- `uiPixelsX` -/
def uiPixelsX : Nat := 789

/-- `uiPixelsY` -/
def uiPixelsY : Nat := 16

/-- The bytes of `baCharset`, 40 to a numeral, the first byte on top. -/
def charsetRows : List Nat := [
  0x000000351353000000000000A3000000000000000000000000000055100001100000000000000000,
  0x00000000000000000000000000000000000000000000000000000000000000000000000000000000,
  0x00000000000000000000000000000000000000000000000000000000000000000000000000000000,
  0x00000000000000000000000000000000000000000000000000000000000000000000000000000000,
  0x00000000000000000000000000000000000000000000000000000000000000000000000000000000,
  0x00000000000000000000000000000000000000000000000000000000000000000000000000000000,
  0x00000000000000000000000000000000000355300001555000000000000000000035000000000001,
  0x55000000000000000000003530000000000015510000000003530000000000000003530000015500,
  0x00000000000000000000000000000000000000000000000000000000000000000000000000000000,
  0x00000000000000000000000000000000000000000000003300510050000000000000003AA00AF57F,
  0x80001A0370017FA510018A300001F500005EFE50000FF3000AAAA100008700000000000000000000,
  0x00000003A008FE5000015AA0005CFFC5003AFFE80000003AA000AAAAA30005CFFC03AAAAAA7005CF,
  0xF80003CFF8000000000000000000000000000000000000003AFFFFA100000018EFF8100000008A70,
  0x0000AAAAAAA5000007AFFFFA307AAAA8300007AAAAAAA307AAAAAAA0003AFFFFEA007A70007A700A,
  0xA300000AA300AA30007A100AA30000007AA30005AA300AA10003A30001AFFFA10003AAAAAA500005,
  0xCFFE80000AAAAAA7000018EFFFC707AAAAAAAA07A70000AA33AA000007A3A70003A70003A37AA000,
  0x08A0AA500005A33AAAAAAA30AFFEA0005FFF00000500000000000001EA00000000005FF000000000,
  0x00000000000AFA00000000005FFF5000000000AFA0000003AA03AA00AFA000005FF0000000000000,
  0x00000000000000000000000000000000000000000000000000000000000000000000000000000000,
  0x0000000000000000000000000000000001EFA00F500FF500000000000005FF00AF15F50005C0A701,
  0xEFFEF700EECF3000E800005FE5EF1000FF000AF33FE0010A8110000000000000000000000000AA08,
  0xF8CF5008FFFA000AC57FF305C57EF800001EFF000FFFFF5008FE58E05FFFFFFA03FF5CFA03FE5AF8,
  0x00000000000000000000000000000000000005E855CFE100005F71018E1000001FFF00000FFCAACF,
  0xF8000AFE857CF50AFEACFFA000AFEAAAAA30AFEAAAAA005FFA558EF00AFA000AFA00FF500000FF50,
  0x0FF5005FA000FF5000000AFF8000AFF500FFA0005F5003FF858FF5005FFAACFF8008FE75CFE100FF,
  0xCAAFFE000CFC558EA07AAEFEAAA0AFA0000FF51FF50000EC3FF0008FF0008F01FF8005F807FE0001,
  0xEC03AAAAEFF30AF03F10000AF00000E300000000000001E50000000005FF00000000000000000000,
  0xAFA0000000000EFA00000000000AFA0000005FF05FF00AFA000005FF000000000000000000000000,
  0x00000000000000000000000000000000000000000001510000000000000000000000000000000000,
  0x0000000000000000000000AF3000F5001CF00000000000005FF00AF05F5000A80E308FCA51105F50,
  0xFA008C00000AFA05F5000AF007F8008F808E87E70000000000000000000000000E71FF05FC0055AF,
  0xA0001000CFA000007FF0000AFFF000F5000003FE10000000005F50AFA05FF0CF700EF10000000000,
  0x00000000000000000000000000100001FF50005E1035517C000008FEF70000FF50007FF008FE1000,
  0x0110AFA005FF800AFA0000000AFA0000003FF500000300AFA000AFA00FF500000FF500FF501FA000,
  0x0FF5000000AFFE000FFF500FFF3005F500EF70007FE005FF000AFF03FF1000CF800FF5005FF505FF,
  0x1000010000AFA0000AFA0000FF50CFA0003F70FF300CFF100EC008FF10EE000EF8008F3000001EFA,
  0x00AF00E70000AF00007FC00000000000000000000000005FF00000000000000000000AFA00000000,
  0x00FF500000000000AFA000000000000000AFA000005FF00000000000000000000000000000000000,
  0x00000000000000000000000000000000FF5000000000000000000000000000000000000000000000,
  0x00000000000AF7000F5000AF00000000000005FF008F05F507AECAFA1AFAA50005F50FA05F100000,
  0x7FE0CF1000AE00EF1001FF11555510003A00000000000000000003F15FA00FF0000AFA0000000AFA,
  0x000005FE0005F7FF000F5000008F80000000000EA00AFC05FC0FF500AF707A7007A7000000007000,
  0x000000070000000000001FF3003E10ACCF50E30000EC8FC0000FF50005FE00FF700000000AFA0008,
  0xFF00AFA0000000AFA000000AFC000000000AFA000AFA00FF500000FF500FF51EE10000FF5000000A,
  0xFEF105FCF500FFFE005F505FF00000FF505FF0005FF0AFA00005FF00FF5000FF505FF1000000000A,
  0xFA0000AFA0000FF507FF0008F10AF700FFF501F7000EFA8F30007FF13F80000008FE100AF008C000,
  0x0AF0000CCF300000000000000005CFFE5005FF3CFC10007CFFF7005CFFFFA001CFF8107FFC7008EF,
  0xCAA00AFA5EFA003AA00AA30AFA00A805FF00AA5CFE55EF8007A75EFA00018EFE5000AA58FE50005C,
  0xFEAA700AA7E505CFFF707FFC70AA300AA33AA0003A38A103A800780AA5008A0AA3000A70AAAAA700,
  0x7FA000F5000FE00000000000005FF0000000005AFACEA33FFE50001FA7F71E50000001FFFE300003,
  0x305FE0000EF50A8CA00005F00000000000000000008C0AFA00FF5000AFA0000000EF700003EE5001,
  0xEC0FF000F851000CF57A81000007F1003FFACE10FF500AFA0AFA00AFA0000007EF0000000000EE70,
  0x000000000AF5000C50A701F30A50005F73FF1000FF5003EF505FF100000000AFA0001FF50AFA0000,
  0x000AFA000000EF7000000000AFA000AFA00FF500000FF500FF5CE100000FF5000000AF8F708CAF50,
  0x0FCEF805F50AFC00000AFA05FF0008FE0FF500000FF50FF5005FF101FFFA50000000AFA0000AFA00,
  0x00FF501FF500EC007FA05FAFA05F30007FFF800000EF8EE1000003FF7000AF005F0000AF0003F1CC,
  0x0000000000000000AA57FF105FFFAEFC008FE75A803FF75EFA01EF7AF807FFC70AFE57FF00AFEFAF,
  0xF805FF00FF50AFA08F505FF00FFFCEFEFCFF30AFEFAFF800EFA5EF700FFFCCFF103FF75EFA00FFFA,
  0x51FF758807FFC70FF500FF51FF3008F1AF507FF00EA07FE15F70CF8003F50AAAFFA001FA000F5000,
  0xFA00000000000001FC00000000005C0A80005EFE10005EF80CA0350003EFFF300A70000AFA0000AF,
  0xA0A13A00005F0000000000000000000C80AFA00FF5000AFA0000008FC0005FFC3000CE13FF000FFF,
  0xF800FFECCFE10001F800007FFF700CFC05FFA07A7007A700007EF810AFFFFFFA007EE70000001EC1,
  0x0001E03E007F00A5000AF00CF8000FFFFFFC1005FF000000000AFA0000FF50AFFFFFF500AFEAAAA0,
  0x0FF5000000000AFFFFFFFA00FF500000FF500FFEFA000000FF5000000AF5FA0E8CF500FA5FF35F50,
  0xAFA00000AFA05FF558FF50FF500000FF50FFCACFF50003EFFFE700000AFA0000AFA0000FF500AFA0,
  0x3F7003FF08F3FE0AF00000CFF1000007FFF7000000EFC0000AF000F5000AF000C803F30000000000,
  0x000000000FF505FF505FF11FF700000AF800AFA08FA00FF00FF501FF100FF00AFF10AFA05FF00FF5,
  0x0AFA3F8005FF00FFA05FF50FF50AFF10AFA05FE005FF00FFA00FF70AF800AFA00FFA005FF100000F,
  0xF500FF500FF50AF800EC05FA0AFF31F500CFAEE005FE00CE00003FF3005F5000F5000AC100153000,
  0x00000FA0000000000880E300001FFF30000007E0AFFE10EF58FC00FA0000AFA0000AFA0000003AAC,
  0xFAAA000005FFF5000001F30AFA00FF5000AFA000005FA1000157EF807F505FF000005FF30FFC00EF,
  0x7000AF10005FC8FFA01EFFECFA000000000007EF810003555555300007EE70000EF100005A08A01E,
  0xC00F0001F8007FE000FF8558FE505FF000000000AFA0000FF50AFC5555100AFEAAAA00FF5000FFFF,
  0x00AFC555CFA00FF500000FF500FFAFF500000FF5000000AF0FF1F3FF500FA0CFC5F50AFA00000AFA,
  0x05FFFFFA500FF500000FF50FFCAEF70000005AFFFA0000AFA0000AFA0000FF5005FF18F1000FF3CA,
  0x0FF0FA00000EFF7000000CFC0000007FF30000AF000AA000AF003F100CC000000000000000038AFF,
  0x505FF000FF55FF000000FF500AFA0AFEAAFF30FF505FF000FF00AFA00AFA05FF00FF50AFAEE0005F,
  0xF00FF505FF00FF50AFA00AFA0AFA000FF50FF500AFA0FF500AFA00FF5001FFE81000FF500FF500FF,
  0x505FE03F501FE0FAF75F1003FFF3000FF31F70000EF800AF80000F50000EF01EFFA10C1000FA0000,
  0x00005FFFFFF80000FAFE000003F33F71F85FF00EF85F50000AFA0000AFA0000003AACFAAA0000015,
  0x551000007E00AFA00FF5000AFA00005FA000000001FF3AFFFFFFF00000CFA0EF700AFA003F80001F,
  0xF105FF300550AF7000000000007EF810003555555300018FE70005FF000005A0AA1EAA1A80007FFF,
  0xFFFF500FF50005FF13FF300000000AFA0003FF10AFA0000000AFA000000EF800058FF00AFA000AFA,
  0x00FF500000FF500FF57FF30000FF5000000AF0AFAE0FF500FA01FFCF508FC00000CF805FF0000000,
  0xEF700001FF30FF505FF100000001AFF3000AFA0000AFA0000FF5000FF7EC0000AF7F70AF8F500007,
  0xFCFF100000AFA000001FF800000AF0005E000AF000000000000000000000000AFEAFF505FF000FF5,
  0x5FF000000FF500AFA0AFEAAAA30FF505FF000FF00AFA00AFA05FF00FF50AFCFF3005FF00FF505FF0,
  0x0FF50AFA00AFA0AFA000FF50FF500AFA0FF500AFA00FF50003CFFF800FF500FF500FF500FF5AF000,
  0xEF5F3FAAC0000CFE0000AFA8F10008FE00037F3000F50008E505701CFFC0000530000000005F58C5,
  0x30000F5FF00001E705F50FA5FF103FFEE000007FC0000CF70000000005F000000000000000000AA0,
  0x05FC01FF0000AFA0005FE0000000000FF535558FF500000AFA0AF700AFA00CF30005FF000FF50000,
  0x0EF300000000000007EF810AFFFFFFA018FE700000155000001E07FF5AFFA0000CC5555AFA00FF50,
  0x000FF50EF800000000AFA000CFC00AFA0000000AFA0000008FE00005FF00AFA000AFA00FF500000F,
  0xF500FF50AFE1000FF5000000AF07FFA0FF500FA008FFF503FF10001FF305FF00000008FC00007FE0,
  0x0FF500AFC000000000FF5000AFA0000AFC0001FF5000AFEF700005FFF308FEF10001FA1EFA00000A,
  0xFA00000CFE000000AF0001F300AF000000000000000000000003FF10FF505FF001FF33FF100000FF,
  0x500CFA0AFA000000FF505FF003FF00AFA00AFA05FF00FF50AFA7FC005FF00FF505FF00FF50AFA00A,
  0xFA08FC001FF30FF500CF80FF500CFA00FF5000001AFF50FF500FF501FF500AFAF8000AFCE0EEE800,
  0x07FEF80005FFF80003FF300000FA000F5000FA00000005500001550000000005E0A8000850FAFC00,
  0x00AA003F71F81FF8008FF3000001FF0000FF10000000005F00005FF0000000FF50F5000FF17FC000,
  0x0AFA000EFA5553011003FF100005FF001001EF703FC00EF503FF00003FF301FF111007FC00AFA00A,
  0xFA0000007EF0000000000FE70000000155000000AA051005300003F700003FF10FF50008FF305FF7,
  0x0000730AFC55CFF300AFA0000000AFA0000001EFA1005FF00AFA000AFA00FF500000FF500FF500EF,
  0xE000FF5000000AF01FF50FF500FA000EFF500CFA000AFC005FF00000001FF5001EF500FF5001EF80,
  0x3500005FF1000AFA00003FF5007FF00005FFF100001FFF005FFE0000CF107FF30000AFA00005FF50,
  0x00000AF0000C800AF000000000000000000000005FF11FF505FF007FE00EFA00010AFC07FFA03FF5,
  0x00110FF501FFA7EFF00AFA00AFA05FF00FF50AFA0EF705FF00FF505FF00FF50AFA00AFA03FF107FE,
  0x00FF501FF30AFC07FFA00FF50031001FF50FF700FF71EFF5003FFF30005FFA0AFF5001FA5FF3000E,
  0xFF3000EF8000005F8000F5000FA00000000000005FF0000000008A0E5000AFFFFE10005E1000AFFE,
  0x105FFCCFEFE0000008F7007F800000000003A00005FF0000000FF55F00005FCEE100AFFFFFF0FFFF,
  0xFFA05FCAFF5000005FF005EAEFA000AFCCFA008FC00000AFFAEF505FACFE100AFA00AFA000000007,
  0x000000000070000000005FF0000000AC757C0000008F100000EF70FFFFFFFF80007FFEAAFF50AFFF,
  0xFFC3000AFFFFFFFA0AFA00000003EFFAAFFF00AFA000AFA00FF500000FF500FF5001EFA00FFFFFFF,
  0xA0AF00AA00FF500FA0003FF5001CFEAEFE1005FF000000005FFCAFFA000FF50005FF35FFCACFF700,
  0x00AFA00000AFFACFF500000FFC000000EFA000FF80007F7000CFE0000AFA0000AFFFFFFF50AF0000,
  0x8C00AF000000000000000000000000EFEEEFE55FFEAFF3005FFEAEA03FFFEEFA008FFCCF50FF5005,
  0xFFF5FF00AFA00AFA05FF00FF50AFA03FF15FF00FF505FF00FF50AFA00AFA00AFEAFE300FFFAEF800,
  0x3FFFEEFA00FF5005FCAEFA008FFF08FFFAFF5000EFE00001FF507FF000CE10AFC0008FC0005FFFFF,
  0xA008F5000F5000CF000000000000015500000000031050000015F800000A50000055100018AA5055,
  0x1000000EE11EE0000000000000000018F00000005518A000003A81000355555505555553017AA830,
  0x000001550018AA5000005AA50003530000003AA830018AA70000353003FA00000000000000000000,
  0x000000000155000000003AAA5000000530000003530555555510000017AAA7300355551000003555,
  0x5555303530000000005AAAA75003530003530055171008FF00055100035510555555530350000005,
  0x510053000055100005AAA5000015500000000017AAEF7500551000055315AAAA7100000353000000,
  0x38AA71000000353000000353000551000550000155100035300003555555510AF00003F10AF00000,
  0x00000AAAAAAAA30000018A33AA11557A81000017AA83003A8135300038AA7105510003511FF00353,
  0x00353015500FF5035300353155005510155005510353003530003AA71000FF8AA300003A81AFA005,
  0x510005AAA500007A7008A7055100035300000551015500153001551007F5000155555300AF1000F5,
  0x000CF000000000000000000000000000000000000A30000000000000000000000000000000001EAA,
  0xE1000000000000000001A80000000000E70000000000000000000000000000000000000000000000,
  0x00000000000000000000000000000000000000000000003F30000000000000000000000000000000,
  0x00000000000000000000000000000000000000000000000000000000000000000000000000000000,
  0x000000000000000000000000000000FFFFFE50000000000000000000000000000000000000000000,
  0x000000000000000000000000000000007EFFA0000000000000000000000000000000000000000000,
  0x0000000000000000000000000000000000000000000000000000AFA7000EAAEF0000000000AAAAAA,
  0xAA30000000000000000000000000000000000000000000000000000008301AFC0000000000000011,
  0xFF10000000000000000000000000000000000000000000000FF500000000000AFA00000000000000,
  0x0000000000000000000000000000000000000000000001EE00000000000005FF700F500CFA000000,
  0x00000000000000000000000000000000000000000000000000000000000000000005500000000000,
  0x000000003810000000001A1000000000000000000000000000000000000000000000000000000000,
  0x00000000000000000000000000000000000750000000000000000000000000000000000000000000,
  0x00000000000000000000000000000000000000000000000000000000000000000000000000000000,
  0x00000000000000000000355300000000000000000000000000000000000000000000000000000000,
  0x00000000000000000000000370000000000000000000000000000000000000000000000000000000,
  0x000000000000000000000000000000000000000007AA70007AAAA000000000000000000000000000,
  0x0000000000000000000000000000000000000000000000FFFFFC100000000000000FFFA000000000,
  0x00000000000000000000000000000000000000FF500000000000AFA0000000000000000000000000,
  0x0000000000000000000000000000000000AF70000000000000015500A30073000000000000000000,
  0x00000000000000000000000000000000000000000000000000000000000000000000000000000000,
  0x00000000000000000000000000000000000000000000000000000000000000000000000000000000,
  0x00000000000000000000000000000000000000000000000000000000000000000000000000000000,
  0x00000000000000000000000000000000000000000000000000000000000000000000000000000000,
  0x00000000000000000000000000000000000000000000000000000000000000000000000000000000,
  0x00000000000000000000000000000000000000000000000000000000000000000000000000000000,
  0x00000000000000000000000000000000000000000000000000000000000000000000000000000000,
  0x00000000000000000000000000000000000000000000000000000000000000000000000000000000,
  0x00000000000000000000000000000000000000000000000000000000000000000000000000000000,
  0x0000000000000000000000000000000000000000000000000000000000000000FF00000000000000]

/-- `baCharset[i]` -/
def baCharset (i : Nat) : Nat := charsetRows.getD (i / 40) 0 / 256 ^ (39 - i % 40) % 256

/-- The pixel `n` of the bitmap: the first of a byte is its upper half. -/
def charsetPixel (n : Nat) : Nat :=
  let b := baCharset (n / 2)
  if n % 2 = 0 then b / 16 else b % 16

/-- The column where the glyph of `c` starts. -/
def glyphStart (c : UInt8) : Nat := waStarts.getD (c.toNat - 0x21) 0

/-- `nWidth` of the glyph of `c`. -/
def glyphWidth (c : UInt8) : Nat := waStarts.getD (c.toNat - 0x20) 0 - glyphStart c

end MbBootTv
