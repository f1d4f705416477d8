import CiteMarkup.Text.Ranges
/-!
# Lower case

A text in lower case, by the full mapping: capital I with a dot becomes two characters, and
a capital sigma at the end of a word becomes the final form of the letter.
-/

namespace CiteMarkup

/-! ## 1. One character -/

/-- Characters from U+0080 on whose small form is one other character. -/
def lowerTable : List CodeTable.Stretch := CodeTable.stretches
  [ "C0,17,1,E0 D8,7,1,F8 100,18,2,101 132,3,2,133 139,8,2,13A 14A,17,2,14B 178,1,1,FF",
    "179,3,2,17A 181,1,1,253 182,2,2,183 186,1,1,254 187,1,1,188 189,2,1,256 18B,1,1,18C",
    "18E,1,1,1DD 18F,1,1,259 190,1,1,25B 191,1,1,192 193,1,1,260 194,1,1,263 196,1,1,269",
    "197,1,1,268 198,1,1,199 19C,1,1,26F 19D,1,1,272 19F,1,1,275 1A0,3,2,1A1 1A6,1,1,280",
    "1A7,1,1,1A8 1A9,1,1,283 1AC,1,1,1AD 1AE,1,1,288 1AF,1,1,1B0 1B1,2,1,28A 1B3,2,2,1B4",
    "1B7,1,1,292 1B8,1,1,1B9 1BC,1,1,1BD 1C4,1,1,1C6 1C5,1,1,1C6 1C7,1,1,1C9 1C8,1,1,1C9",
    "1CA,1,1,1CC 1CB,9,2,1CC 1DE,9,2,1DF 1F1,1,1,1F3 1F2,2,2,1F3 1F6,1,1,195 1F7,1,1,1BF",
    "1F8,14,2,1F9 220,1,1,19E 222,9,2,223 23A,1,1,2C65 23B,1,1,23C 23D,1,1,19A 23E,1,1,2C66",
    "241,1,1,242 243,1,1,180 244,1,1,289 245,1,1,28C 246,5,2,247 370,2,2,371 376,1,1,377",
    "37F,1,1,3F3 386,1,1,3AC 388,3,1,3AD 38C,1,1,3CC 38E,2,1,3CD 391,11,1,3B1 3A3,9,1,3C3",
    "3CF,1,1,3D7 3D8,C,2,3D9 3F4,1,1,3B8 3F7,1,1,3F8 3F9,1,1,3F2 3FA,1,1,3FB 3FD,3,1,37B",
    "400,10,1,450 410,20,1,430 460,11,2,461 48A,1B,2,48B 4C0,1,1,4CF 4C1,7,2,4C2 4D0,30,2,4D1",
    "531,26,1,561 10A0,26,1,2D00 10C7,1,1,2D27 10CD,1,1,2D2D 13A0,50,1,AB70 13F0,6,1,13F8",
    "1C90,2B,1,10D0 1CBD,3,1,10FD 1E00,4B,2,1E01 1E9E,1,1,DF 1EA0,30,2,1EA1 1F08,8,1,1F00",
    "1F18,6,1,1F10 1F28,8,1,1F20 1F38,8,1,1F30 1F48,6,1,1F40 1F59,4,2,1F51 1F68,8,1,1F60",
    "1F88,8,1,1F80 1F98,8,1,1F90 1FA8,8,1,1FA0 1FB8,2,1,1FB0 1FBA,2,1,1F70 1FBC,1,1,1FB3",
    "1FC8,4,1,1F72 1FCC,1,1,1FC3 1FD8,2,1,1FD0 1FDA,2,1,1F76 1FE8,2,1,1FE0 1FEA,2,1,1F7A",
    "1FEC,1,1,1FE5 1FF8,2,1,1F78 1FFA,2,1,1F7C 1FFC,1,1,1FF3 2126,1,1,3C9 212A,1,1,6B 212B,1,1,E5",
    "2132,1,1,214E 2160,10,1,2170 2183,1,1,2184 24B6,1A,1,24D0 2C00,30,1,2C30 2C60,1,1,2C61",
    "2C62,1,1,26B 2C63,1,1,1D7D 2C64,1,1,27D 2C67,3,2,2C68 2C6D,1,1,251 2C6E,1,1,271 2C6F,1,1,250",
    "2C70,1,1,252 2C72,1,1,2C73 2C75,1,1,2C76 2C7E,2,1,23F 2C80,32,2,2C81 2CEB,2,2,2CEC",
    "2CF2,1,1,2CF3 A640,17,2,A641 A680,E,2,A681 A722,7,2,A723 A732,1F,2,A733 A779,2,2,A77A",
    "A77D,1,1,1D79 A77E,5,2,A77F A78B,1,1,A78C A78D,1,1,265 A790,2,2,A791 A796,A,2,A797",
    "A7AA,1,1,266 A7AB,1,1,25C A7AC,1,1,261 A7AD,1,1,26C A7AE,1,1,26A A7B0,1,1,29E A7B1,1,1,287",
    "A7B2,1,1,29D A7B3,1,1,AB53 A7B4,8,2,A7B5 A7C4,1,1,A794 A7C5,1,1,282 A7C6,1,1,1D8E",
    "A7C7,2,2,A7C8 A7D0,1,1,A7D1 A7D6,2,2,A7D7 A7F5,1,1,A7F6 FF21,1A,1,FF41 10400,28,1,10428",
    "104B0,24,1,104D8 10570,13,2,10597 10571,5,2,10598 1057D,7,2,105A4 1058D,3,2,105B4",
    "10595,1,1,105BC 10C80,33,1,10CC0 118A0,20,1,118C0 16E40,20,1,16E60 1E900,22,1,1E922" ]

/-- The small form of an ASCII letter. -/
def asciiLower (c : Char) : Char :=
  if 'A' ≤ c && c ≤ 'Z' then Char.ofNat (c.toNat + 32) else c

/-- The small form of a character, where that is one character. -/
def lowerChar (c : Char) : Char :=
  if isAscii c then asciiLower c else (CodeTable.image? lowerTable c).getD c

/-! ## 2. The sigma at the end of a word -/

/-- Characters with a case, from U+0080 on, other than those that do not count. -/
def casedTable : List (Nat × Nat) := CodeTable.ranges
  [ "AA B5 BA C0,D6 D8,F6 F8,1BA 1BC,1BF 1C4,293 295,2AF 370,373 376,377 37B,37D 37F 386 388,38A",
    "38C 38E,3A1 3A3,3F5 3F7,481 48A,52F 531,556 560,588 10A0,10C5 10C7 10CD 10D0,10FA 10FD,10FF",
    "13A0,13F5 13F8,13FD 1C80,1C88 1C90,1CBA 1CBD,1CBF 1D00,1D2B 1D6B,1D77 1D79,1D9A 1E00,1F15",
    "1F18,1F1D 1F20,1F45 1F48,1F4D 1F50,1F57 1F59 1F5B 1F5D 1F5F,1F7D 1F80,1FB4 1FB6,1FBC 1FBE",
    "1FC2,1FC4 1FC6,1FCC 1FD0,1FD3 1FD6,1FDB 1FE0,1FEC 1FF2,1FF4 1FF6,1FFC 2102 2107 210A,2113",
    "2115 2119,211D 2124 2126 2128 212A,212D 212F,2134 2139 213C,213F 2145,2149 214E 2160,217F",
    "2183,2184 24B6,24E9 2C00,2C7B 2C7E,2CE4 2CEB,2CEE 2CF2,2CF3 2D00,2D25 2D27 2D2D A640,A66D",
    "A680,A69B A722,A76F A771,A787 A78B,A78E A790,A7CA A7D0,A7D1 A7D3 A7D5,A7D9 A7F5,A7F6 A7FA",
    "AB30,AB5A AB60,AB68 AB70,ABBF FB00,FB06 FB13,FB17 FF21,FF3A FF41,FF5A 10400,1044F",
    "104B0,104D3 104D8,104FB 10570,1057A 1057C,1058A 1058C,10592 10594,10595 10597,105A1",
    "105A3,105B1 105B3,105B9 105BB,105BC 10C80,10CB2 10CC0,10CF2 118A0,118DF 16E40,16E7F",
    "1D400,1D454 1D456,1D49C 1D49E,1D49F 1D4A2 1D4A5,1D4A6 1D4A9,1D4AC 1D4AE,1D4B9 1D4BB",
    "1D4BD,1D4C3 1D4C5,1D505 1D507,1D50A 1D50D,1D514 1D516,1D51C 1D51E,1D539 1D53B,1D53E",
    "1D540,1D544 1D546 1D54A,1D550 1D552,1D6A5 1D6A8,1D6C0 1D6C2,1D6DA 1D6DC,1D6FA 1D6FC,1D714",
    "1D716,1D734 1D736,1D74E 1D750,1D76E 1D770,1D788 1D78A,1D7A8 1D7AA,1D7C2 1D7C4,1D7CB",
    "1DF00,1DF09 1DF0B,1DF1E 1E900,1E943 1F130,1F149 1F150,1F169 1F170,1F189" ]

/-- Characters that do not count when the letters around a sigma are looked for, from
U+0080 on: marks, modifiers and the like. -/
def caseIgnorableTable : List (Nat × Nat) := CodeTable.ranges
  [ "A8 AD AF B4 B7,B8 2B0,36F 374,375 37A 384,385 387 483,489 559 55F 591,5BD 5BF 5C1,5C2",
    "5C4,5C5 5C7 5F4 600,605 610,61A 61C 640 64B,65F 670 6D6,6DD 6DF,6E8 6EA,6ED 70F 711 730,74A",
    "7A6,7B0 7EB,7F5 7FA 7FD 816,82D 859,85B 888 890,891 898,89F 8C9,902 93A 93C 941,948 94D",
    "951,957 962,963 971 981 9BC 9C1,9C4 9CD 9E2,9E3 9FE A01,A02 A3C A41,A42 A47,A48 A4B,A4D A51",
    "A70,A71 A75 A81,A82 ABC AC1,AC5 AC7,AC8 ACD AE2,AE3 AFA,AFF B01 B3C B3F B41,B44 B4D B55,B56",
    "B62,B63 B82 BC0 BCD C00 C04 C3C C3E,C40 C46,C48 C4A,C4D C55,C56 C62,C63 C81 CBC CBF CC6",
    "CCC,CCD CE2,CE3 D00,D01 D3B,D3C D41,D44 D4D D62,D63 D81 DCA DD2,DD4 DD6 E31 E34,E3A E46,E4E",
    "EB1 EB4,EBC EC6 EC8,ECD F18,F19 F35 F37 F39 F71,F7E F80,F84 F86,F87 F8D,F97 F99,FBC FC6",
    "102D,1030 1032,1037 1039,103A 103D,103E 1058,1059 105E,1060 1071,1074 1082 1085,1086 108D",
    "109D 10FC 135D,135F 1712,1714 1732,1733 1752,1753 1772,1773 17B4,17B5 17B7,17BD 17C6",
    "17C9,17D3 17D7 17DD 180B,180F 1843 1885,1886 18A9 1920,1922 1927,1928 1932 1939,193B",
    "1A17,1A18 1A1B 1A56 1A58,1A5E 1A60 1A62 1A65,1A6C 1A73,1A7C 1A7F 1AA7 1AB0,1ACE 1B00,1B03",
    "1B34 1B36,1B3A 1B3C 1B42 1B6B,1B73 1B80,1B81 1BA2,1BA5 1BA8,1BA9 1BAB,1BAD 1BE6 1BE8,1BE9",
    "1BED 1BEF,1BF1 1C2C,1C33 1C36,1C37 1C78,1C7D 1CD0,1CD2 1CD4,1CE0 1CE2,1CE8 1CED 1CF4",
    "1CF8,1CF9 1D2C,1D6A 1D78 1D9B,1DFF 1FBD 1FBF,1FC1 1FCD,1FCF 1FDD,1FDF 1FED,1FEF 1FFD,1FFE",
    "200B,200F 2018,2019 2024 2027 202A,202E 2060,2064 2066,206F 2071 207F 2090,209C 20D0,20F0",
    "2C7C,2C7D 2CEF,2CF1 2D6F 2D7F 2DE0,2DFF 2E2F 3005 302A,302D 3031,3035 303B 3099,309E",
    "30FC,30FE A015 A4F8,A4FD A60C A66F,A672 A674,A67D A67F A69C,A69F A6F0,A6F1 A700,A721 A770",
    "A788,A78A A7F2,A7F4 A7F8,A7F9 A802 A806 A80B A825,A826 A82C A8C4,A8C5 A8E0,A8F1 A8FF",
    "A926,A92D A947,A951 A980,A982 A9B3 A9B6,A9B9 A9BC,A9BD A9CF A9E5,A9E6 AA29,AA2E AA31,AA32",
    "AA35,AA36 AA43 AA4C AA70 AA7C AAB0 AAB2,AAB4 AAB7,AAB8 AABE,AABF AAC1 AADD AAEC,AAED",
    "AAF3,AAF4 AAF6 AB5B,AB5F AB69,AB6B ABE5 ABE8 ABED FB1E FBB2,FBC2 FE00,FE0F FE13 FE20,FE2F",
    "FE52 FE55 FEFF FF07 FF0E FF1A FF3E FF40 FF70 FF9E,FF9F FFE3 FFF9,FFFB 101FD 102E0",
    "10376,1037A 10780,10785 10787,107B0 107B2,107BA 10A01,10A03 10A05,10A06 10A0C,10A0F",
    "10A38,10A3A 10A3F 10AE5,10AE6 10D24,10D27 10EAB,10EAC 10F46,10F50 10F82,10F85 11001",
    "11038,11046 11070 11073,11074 1107F,11081 110B3,110B6 110B9,110BA 110BD 110C2 110CD",
    "11100,11102 11127,1112B 1112D,11134 11173 11180,11181 111B6,111BE 111C9,111CC 111CF",
    "1122F,11231 11234 11236,11237 1123E 112DF 112E3,112EA 11300,11301 1133B,1133C 11340",
    "11366,1136C 11370,11374 11438,1143F 11442,11444 11446 1145E 114B3,114B8 114BA 114BF,114C0",
    "114C2,114C3 115B2,115B5 115BC,115BD 115BF,115C0 115DC,115DD 11633,1163A 1163D 1163F,11640",
    "116AB 116AD 116B0,116B5 116B7 1171D,1171F 11722,11725 11727,1172B 1182F,11837 11839,1183A",
    "1193B,1193C 1193E 11943 119D4,119D7 119DA,119DB 119E0 11A01,11A0A 11A33,11A38 11A3B,11A3E",
    "11A47 11A51,11A56 11A59,11A5B 11A8A,11A96 11A98,11A99 11C30,11C36 11C38,11C3D 11C3F",
    "11C92,11CA7 11CAA,11CB0 11CB2,11CB3 11CB5,11CB6 11D31,11D36 11D3A 11D3C,11D3D 11D3F,11D45",
    "11D47 11D90,11D91 11D95 11D97 11EF3,11EF4 13430,13438 16AF0,16AF4 16B30,16B36 16B40,16B43",
    "16F4F 16F8F,16F9F 16FE0,16FE1 16FE3,16FE4 1AFF0,1AFF3 1AFF5,1AFFB 1AFFD,1AFFE 1BC9D,1BC9E",
    "1BCA0,1BCA3 1CF00,1CF2D 1CF30,1CF46 1D167,1D169 1D173,1D182 1D185,1D18B 1D1AA,1D1AD",
    "1D242,1D244 1DA00,1DA36 1DA3B,1DA6C 1DA75 1DA84 1DA9B,1DA9F 1DAA1,1DAAF 1E000,1E006",
    "1E008,1E018 1E01B,1E021 1E023,1E024 1E026,1E02A 1E130,1E13D 1E2AE 1E2EC,1E2EF 1E8D0,1E8D6",
    "1E944,1E94B 1F3FB,1F3FF E0001 E0020,E007F E0100,E01EF" ]

/-- A character with a case. -/
def isCased (c : Char) : Bool :=
  if isAscii c then isAsciiLetter c else CodeTable.within casedTable c

/-- A character that does not count when the letters around a sigma are looked for. -/
def isCaseIgnorable (c : Char) : Bool :=
  if isAscii c then c = '\'' || c = '.' || c = ':' || c = '^' || c.toNat = 0x60
  else CodeTable.within caseIgnorableTable c

/-- The next character that counts has a case. -/
def meetsCased (t : Text) : Bool := (t.dropWhile isCaseIgnorable).head?.any isCased

/-! ## 3. Texts -/

/-- The small form of a character between the text before it, last character first, and the
text after it. -/
def lowerAt (before : Text) (c : Char) (after : Text) : Text :=
  if c.toNat = 0x130 then ['i', Char.ofNat 0x307]
  else if c.toNat = 0x3A3 then
    [Char.ofNat (if meetsCased before && !meetsCased after then 0x3C2 else 0x3C3)]
  else [lowerChar c]

/-- The rest of a text in lower case, `before` being what stands before it, last character
first. -/
def lowerFrom (before : Text) : Text → Text
  | [] => []
  | c :: r => lowerAt before c r ++ lowerFrom (c :: before) r

/-- The text in lower case. -/
def Text.lower (t : Text) : Text := lowerFrom [] t

end CiteMarkup
