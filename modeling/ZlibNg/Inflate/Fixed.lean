import ZlibNg.Inflate.Lookup
import Mathlib.Data.List.Range

/-! The tables of inffixed_tbl.h for the fixed codes. -/
namespace ZlibNg

/-- `lenfix`. -/
def lenfix : List Code :=
  [⟨7, 96, 0⟩, ⟨8, 0, 80⟩, ⟨8, 0, 16⟩, ⟨12, 24, 115⟩, ⟨9, 23, 31⟩, ⟨8, 0, 112⟩, ⟨8, 0, 48⟩,
    ⟨9, 0, 192⟩, ⟨7, 23, 10⟩, ⟨8, 0, 96⟩, ⟨8, 0, 32⟩, ⟨9, 0, 160⟩, ⟨8, 0, 0⟩, ⟨8, 0, 128⟩,
    ⟨8, 0, 64⟩, ⟨9, 0, 224⟩, ⟨7, 23, 6⟩, ⟨8, 0, 88⟩, ⟨8, 0, 24⟩, ⟨9, 0, 144⟩, ⟨10, 23, 59⟩,
    ⟨8, 0, 120⟩, ⟨8, 0, 56⟩, ⟨9, 0, 208⟩, ⟨8, 23, 17⟩, ⟨8, 0, 104⟩, ⟨8, 0, 40⟩, ⟨9, 0, 176⟩,
    ⟨8, 0, 8⟩, ⟨8, 0, 136⟩, ⟨8, 0, 72⟩, ⟨9, 0, 240⟩, ⟨7, 23, 4⟩, ⟨8, 0, 84⟩, ⟨8, 0, 20⟩,
    ⟨13, 24, 227⟩, ⟨10, 23, 43⟩, ⟨8, 0, 116⟩, ⟨8, 0, 52⟩, ⟨9, 0, 200⟩, ⟨8, 23, 13⟩, ⟨8, 0, 100⟩,
    ⟨8, 0, 36⟩, ⟨9, 0, 168⟩, ⟨8, 0, 4⟩, ⟨8, 0, 132⟩, ⟨8, 0, 68⟩, ⟨9, 0, 232⟩, ⟨7, 23, 8⟩,
    ⟨8, 0, 92⟩, ⟨8, 0, 28⟩, ⟨9, 0, 152⟩, ⟨11, 23, 83⟩, ⟨8, 0, 124⟩, ⟨8, 0, 60⟩, ⟨9, 0, 216⟩,
    ⟨9, 23, 23⟩, ⟨8, 0, 108⟩, ⟨8, 0, 44⟩, ⟨9, 0, 184⟩, ⟨8, 0, 12⟩, ⟨8, 0, 140⟩, ⟨8, 0, 76⟩,
    ⟨9, 0, 248⟩, ⟨7, 23, 3⟩, ⟨8, 0, 82⟩, ⟨8, 0, 18⟩, ⟨13, 24, 163⟩, ⟨10, 23, 35⟩, ⟨8, 0, 114⟩,
    ⟨8, 0, 50⟩, ⟨9, 0, 196⟩, ⟨8, 23, 11⟩, ⟨8, 0, 98⟩, ⟨8, 0, 34⟩, ⟨9, 0, 164⟩, ⟨8, 0, 2⟩,
    ⟨8, 0, 130⟩, ⟨8, 0, 66⟩, ⟨9, 0, 228⟩, ⟨7, 23, 7⟩, ⟨8, 0, 90⟩, ⟨8, 0, 26⟩, ⟨9, 0, 148⟩,
    ⟨11, 23, 67⟩, ⟨8, 0, 122⟩, ⟨8, 0, 58⟩, ⟨9, 0, 212⟩, ⟨9, 23, 19⟩, ⟨8, 0, 106⟩, ⟨8, 0, 42⟩,
    ⟨9, 0, 180⟩, ⟨8, 0, 10⟩, ⟨8, 0, 138⟩, ⟨8, 0, 74⟩, ⟨9, 0, 244⟩, ⟨7, 23, 5⟩, ⟨8, 0, 86⟩,
    ⟨8, 0, 22⟩, ⟨15, 64, 0⟩, ⟨10, 23, 51⟩, ⟨8, 0, 118⟩, ⟨8, 0, 54⟩, ⟨9, 0, 204⟩, ⟨8, 23, 15⟩,
    ⟨8, 0, 102⟩, ⟨8, 0, 38⟩, ⟨9, 0, 172⟩, ⟨8, 0, 6⟩, ⟨8, 0, 134⟩, ⟨8, 0, 70⟩, ⟨9, 0, 236⟩,
    ⟨7, 23, 9⟩, ⟨8, 0, 94⟩, ⟨8, 0, 30⟩, ⟨9, 0, 156⟩, ⟨11, 23, 99⟩, ⟨8, 0, 126⟩, ⟨8, 0, 62⟩,
    ⟨9, 0, 220⟩, ⟨9, 23, 27⟩, ⟨8, 0, 110⟩, ⟨8, 0, 46⟩, ⟨9, 0, 188⟩, ⟨8, 0, 14⟩, ⟨8, 0, 142⟩,
    ⟨8, 0, 78⟩, ⟨9, 0, 252⟩, ⟨7, 96, 0⟩, ⟨8, 0, 81⟩, ⟨8, 0, 17⟩, ⟨13, 24, 131⟩, ⟨9, 23, 31⟩,
    ⟨8, 0, 113⟩, ⟨8, 0, 49⟩, ⟨9, 0, 194⟩, ⟨7, 23, 10⟩, ⟨8, 0, 97⟩, ⟨8, 0, 33⟩, ⟨9, 0, 162⟩,
    ⟨8, 0, 1⟩, ⟨8, 0, 129⟩, ⟨8, 0, 65⟩, ⟨9, 0, 226⟩, ⟨7, 23, 6⟩, ⟨8, 0, 89⟩, ⟨8, 0, 25⟩,
    ⟨9, 0, 146⟩, ⟨10, 23, 59⟩, ⟨8, 0, 121⟩, ⟨8, 0, 57⟩, ⟨9, 0, 210⟩, ⟨8, 23, 17⟩, ⟨8, 0, 105⟩,
    ⟨8, 0, 41⟩, ⟨9, 0, 178⟩, ⟨8, 0, 9⟩, ⟨8, 0, 137⟩, ⟨8, 0, 73⟩, ⟨9, 0, 242⟩, ⟨7, 23, 4⟩,
    ⟨8, 0, 85⟩, ⟨8, 0, 21⟩, ⟨8, 24, 258⟩, ⟨10, 23, 43⟩, ⟨8, 0, 117⟩, ⟨8, 0, 53⟩, ⟨9, 0, 202⟩,
    ⟨8, 23, 13⟩, ⟨8, 0, 101⟩, ⟨8, 0, 37⟩, ⟨9, 0, 170⟩, ⟨8, 0, 5⟩, ⟨8, 0, 133⟩, ⟨8, 0, 69⟩,
    ⟨9, 0, 234⟩, ⟨7, 23, 8⟩, ⟨8, 0, 93⟩, ⟨8, 0, 29⟩, ⟨9, 0, 154⟩, ⟨11, 23, 83⟩, ⟨8, 0, 125⟩,
    ⟨8, 0, 61⟩, ⟨9, 0, 218⟩, ⟨9, 23, 23⟩, ⟨8, 0, 109⟩, ⟨8, 0, 45⟩, ⟨9, 0, 186⟩, ⟨8, 0, 13⟩,
    ⟨8, 0, 141⟩, ⟨8, 0, 77⟩, ⟨9, 0, 250⟩, ⟨7, 23, 3⟩, ⟨8, 0, 83⟩, ⟨8, 0, 19⟩, ⟨13, 24, 195⟩,
    ⟨10, 23, 35⟩, ⟨8, 0, 115⟩, ⟨8, 0, 51⟩, ⟨9, 0, 198⟩, ⟨8, 23, 11⟩, ⟨8, 0, 99⟩, ⟨8, 0, 35⟩,
    ⟨9, 0, 166⟩, ⟨8, 0, 3⟩, ⟨8, 0, 131⟩, ⟨8, 0, 67⟩, ⟨9, 0, 230⟩, ⟨7, 23, 7⟩, ⟨8, 0, 91⟩,
    ⟨8, 0, 27⟩, ⟨9, 0, 150⟩, ⟨11, 23, 67⟩, ⟨8, 0, 123⟩, ⟨8, 0, 59⟩, ⟨9, 0, 214⟩, ⟨9, 23, 19⟩,
    ⟨8, 0, 107⟩, ⟨8, 0, 43⟩, ⟨9, 0, 182⟩, ⟨8, 0, 11⟩, ⟨8, 0, 139⟩, ⟨8, 0, 75⟩, ⟨9, 0, 246⟩,
    ⟨7, 23, 5⟩, ⟨8, 0, 87⟩, ⟨8, 0, 23⟩, ⟨19, 64, 0⟩, ⟨10, 23, 51⟩, ⟨8, 0, 119⟩, ⟨8, 0, 55⟩,
    ⟨9, 0, 206⟩, ⟨8, 23, 15⟩, ⟨8, 0, 103⟩, ⟨8, 0, 39⟩, ⟨9, 0, 174⟩, ⟨8, 0, 7⟩, ⟨8, 0, 135⟩,
    ⟨8, 0, 71⟩, ⟨9, 0, 238⟩, ⟨7, 23, 9⟩, ⟨8, 0, 95⟩, ⟨8, 0, 31⟩, ⟨9, 0, 158⟩, ⟨11, 23, 99⟩,
    ⟨8, 0, 127⟩, ⟨8, 0, 63⟩, ⟨9, 0, 222⟩, ⟨9, 23, 27⟩, ⟨8, 0, 111⟩, ⟨8, 0, 47⟩, ⟨9, 0, 190⟩,
    ⟨8, 0, 15⟩, ⟨8, 0, 143⟩, ⟨8, 0, 79⟩, ⟨9, 0, 254⟩, ⟨7, 96, 0⟩, ⟨8, 0, 80⟩, ⟨8, 0, 16⟩,
    ⟨12, 24, 115⟩, ⟨9, 23, 31⟩, ⟨8, 0, 112⟩, ⟨8, 0, 48⟩, ⟨9, 0, 193⟩, ⟨7, 23, 10⟩, ⟨8, 0, 96⟩,
    ⟨8, 0, 32⟩, ⟨9, 0, 161⟩, ⟨8, 0, 0⟩, ⟨8, 0, 128⟩, ⟨8, 0, 64⟩, ⟨9, 0, 225⟩, ⟨7, 23, 6⟩,
    ⟨8, 0, 88⟩, ⟨8, 0, 24⟩, ⟨9, 0, 145⟩, ⟨10, 23, 59⟩, ⟨8, 0, 120⟩, ⟨8, 0, 56⟩, ⟨9, 0, 209⟩,
    ⟨8, 23, 17⟩, ⟨8, 0, 104⟩, ⟨8, 0, 40⟩, ⟨9, 0, 177⟩, ⟨8, 0, 8⟩, ⟨8, 0, 136⟩, ⟨8, 0, 72⟩,
    ⟨9, 0, 241⟩, ⟨7, 23, 4⟩, ⟨8, 0, 84⟩, ⟨8, 0, 20⟩, ⟨13, 24, 227⟩, ⟨10, 23, 43⟩, ⟨8, 0, 116⟩,
    ⟨8, 0, 52⟩, ⟨9, 0, 201⟩, ⟨8, 23, 13⟩, ⟨8, 0, 100⟩, ⟨8, 0, 36⟩, ⟨9, 0, 169⟩, ⟨8, 0, 4⟩,
    ⟨8, 0, 132⟩, ⟨8, 0, 68⟩, ⟨9, 0, 233⟩, ⟨7, 23, 8⟩, ⟨8, 0, 92⟩, ⟨8, 0, 28⟩, ⟨9, 0, 153⟩,
    ⟨11, 23, 83⟩, ⟨8, 0, 124⟩, ⟨8, 0, 60⟩, ⟨9, 0, 217⟩, ⟨9, 23, 23⟩, ⟨8, 0, 108⟩, ⟨8, 0, 44⟩,
    ⟨9, 0, 185⟩, ⟨8, 0, 12⟩, ⟨8, 0, 140⟩, ⟨8, 0, 76⟩, ⟨9, 0, 249⟩, ⟨7, 23, 3⟩, ⟨8, 0, 82⟩,
    ⟨8, 0, 18⟩, ⟨13, 24, 163⟩, ⟨10, 23, 35⟩, ⟨8, 0, 114⟩, ⟨8, 0, 50⟩, ⟨9, 0, 197⟩, ⟨8, 23, 11⟩,
    ⟨8, 0, 98⟩, ⟨8, 0, 34⟩, ⟨9, 0, 165⟩, ⟨8, 0, 2⟩, ⟨8, 0, 130⟩, ⟨8, 0, 66⟩, ⟨9, 0, 229⟩,
    ⟨7, 23, 7⟩, ⟨8, 0, 90⟩, ⟨8, 0, 26⟩, ⟨9, 0, 149⟩, ⟨11, 23, 67⟩, ⟨8, 0, 122⟩, ⟨8, 0, 58⟩,
    ⟨9, 0, 213⟩, ⟨9, 23, 19⟩, ⟨8, 0, 106⟩, ⟨8, 0, 42⟩, ⟨9, 0, 181⟩, ⟨8, 0, 10⟩, ⟨8, 0, 138⟩,
    ⟨8, 0, 74⟩, ⟨9, 0, 245⟩, ⟨7, 23, 5⟩, ⟨8, 0, 86⟩, ⟨8, 0, 22⟩, ⟨15, 64, 0⟩, ⟨10, 23, 51⟩,
    ⟨8, 0, 118⟩, ⟨8, 0, 54⟩, ⟨9, 0, 205⟩, ⟨8, 23, 15⟩, ⟨8, 0, 102⟩, ⟨8, 0, 38⟩, ⟨9, 0, 173⟩,
    ⟨8, 0, 6⟩, ⟨8, 0, 134⟩, ⟨8, 0, 70⟩, ⟨9, 0, 237⟩, ⟨7, 23, 9⟩, ⟨8, 0, 94⟩, ⟨8, 0, 30⟩,
    ⟨9, 0, 157⟩, ⟨11, 23, 99⟩, ⟨8, 0, 126⟩, ⟨8, 0, 62⟩, ⟨9, 0, 221⟩, ⟨9, 23, 27⟩, ⟨8, 0, 110⟩,
    ⟨8, 0, 46⟩, ⟨9, 0, 189⟩, ⟨8, 0, 14⟩, ⟨8, 0, 142⟩, ⟨8, 0, 78⟩, ⟨9, 0, 253⟩, ⟨7, 96, 0⟩,
    ⟨8, 0, 81⟩, ⟨8, 0, 17⟩, ⟨13, 24, 131⟩, ⟨9, 23, 31⟩, ⟨8, 0, 113⟩, ⟨8, 0, 49⟩, ⟨9, 0, 195⟩,
    ⟨7, 23, 10⟩, ⟨8, 0, 97⟩, ⟨8, 0, 33⟩, ⟨9, 0, 163⟩, ⟨8, 0, 1⟩, ⟨8, 0, 129⟩, ⟨8, 0, 65⟩,
    ⟨9, 0, 227⟩, ⟨7, 23, 6⟩, ⟨8, 0, 89⟩, ⟨8, 0, 25⟩, ⟨9, 0, 147⟩, ⟨10, 23, 59⟩, ⟨8, 0, 121⟩,
    ⟨8, 0, 57⟩, ⟨9, 0, 211⟩, ⟨8, 23, 17⟩, ⟨8, 0, 105⟩, ⟨8, 0, 41⟩, ⟨9, 0, 179⟩, ⟨8, 0, 9⟩,
    ⟨8, 0, 137⟩, ⟨8, 0, 73⟩, ⟨9, 0, 243⟩, ⟨7, 23, 4⟩, ⟨8, 0, 85⟩, ⟨8, 0, 21⟩, ⟨8, 24, 258⟩,
    ⟨10, 23, 43⟩, ⟨8, 0, 117⟩, ⟨8, 0, 53⟩, ⟨9, 0, 203⟩, ⟨8, 23, 13⟩, ⟨8, 0, 101⟩, ⟨8, 0, 37⟩,
    ⟨9, 0, 171⟩, ⟨8, 0, 5⟩, ⟨8, 0, 133⟩, ⟨8, 0, 69⟩, ⟨9, 0, 235⟩, ⟨7, 23, 8⟩, ⟨8, 0, 93⟩,
    ⟨8, 0, 29⟩, ⟨9, 0, 155⟩, ⟨11, 23, 83⟩, ⟨8, 0, 125⟩, ⟨8, 0, 61⟩, ⟨9, 0, 219⟩, ⟨9, 23, 23⟩,
    ⟨8, 0, 109⟩, ⟨8, 0, 45⟩, ⟨9, 0, 187⟩, ⟨8, 0, 13⟩, ⟨8, 0, 141⟩, ⟨8, 0, 77⟩, ⟨9, 0, 251⟩,
    ⟨7, 23, 3⟩, ⟨8, 0, 83⟩, ⟨8, 0, 19⟩, ⟨13, 24, 195⟩, ⟨10, 23, 35⟩, ⟨8, 0, 115⟩, ⟨8, 0, 51⟩,
    ⟨9, 0, 199⟩, ⟨8, 23, 11⟩, ⟨8, 0, 99⟩, ⟨8, 0, 35⟩, ⟨9, 0, 167⟩, ⟨8, 0, 3⟩, ⟨8, 0, 131⟩,
    ⟨8, 0, 67⟩, ⟨9, 0, 231⟩, ⟨7, 23, 7⟩, ⟨8, 0, 91⟩, ⟨8, 0, 27⟩, ⟨9, 0, 151⟩, ⟨11, 23, 67⟩,
    ⟨8, 0, 123⟩, ⟨8, 0, 59⟩, ⟨9, 0, 215⟩, ⟨9, 23, 19⟩, ⟨8, 0, 107⟩, ⟨8, 0, 43⟩, ⟨9, 0, 183⟩,
    ⟨8, 0, 11⟩, ⟨8, 0, 139⟩, ⟨8, 0, 75⟩, ⟨9, 0, 247⟩, ⟨7, 23, 5⟩, ⟨8, 0, 87⟩, ⟨8, 0, 23⟩,
    ⟨19, 64, 0⟩, ⟨10, 23, 51⟩, ⟨8, 0, 119⟩, ⟨8, 0, 55⟩, ⟨9, 0, 207⟩, ⟨8, 23, 15⟩, ⟨8, 0, 103⟩,
    ⟨8, 0, 39⟩, ⟨9, 0, 175⟩, ⟨8, 0, 7⟩, ⟨8, 0, 135⟩, ⟨8, 0, 71⟩, ⟨9, 0, 239⟩, ⟨7, 23, 9⟩,
    ⟨8, 0, 95⟩, ⟨8, 0, 31⟩, ⟨9, 0, 159⟩, ⟨11, 23, 99⟩, ⟨8, 0, 127⟩, ⟨8, 0, 63⟩, ⟨9, 0, 223⟩,
    ⟨9, 23, 27⟩, ⟨8, 0, 111⟩, ⟨8, 0, 47⟩, ⟨9, 0, 191⟩, ⟨8, 0, 15⟩, ⟨8, 0, 143⟩, ⟨8, 0, 79⟩,
    ⟨9, 0, 255⟩]

/-- `distfix`. -/
def distfix : List Code :=
  [⟨5, 21, 1⟩, ⟨12, 21, 257⟩, ⟨8, 21, 17⟩, ⟨16, 21, 4097⟩, ⟨6, 21, 5⟩, ⟨14, 21, 1025⟩,
    ⟨10, 21, 65⟩, ⟨18, 21, 16385⟩, ⟨5, 21, 3⟩, ⟨13, 21, 513⟩, ⟨9, 21, 33⟩, ⟨17, 21, 8193⟩,
    ⟨7, 21, 9⟩, ⟨15, 21, 2049⟩, ⟨11, 21, 129⟩, ⟨5, 64, 0⟩, ⟨5, 21, 2⟩, ⟨12, 21, 385⟩, ⟨8, 21, 25⟩,
    ⟨16, 21, 6145⟩, ⟨6, 21, 7⟩, ⟨14, 21, 1537⟩, ⟨10, 21, 97⟩, ⟨18, 21, 24577⟩, ⟨5, 21, 4⟩,
    ⟨13, 21, 769⟩, ⟨9, 21, 49⟩, ⟨17, 21, 12289⟩, ⟨7, 21, 13⟩, ⟨15, 21, 3073⟩, ⟨11, 21, 193⟩,
    ⟨5, 64, 0⟩]

instance (l : Nat) (c : Code) : Decidable (LenEntry l c) :=
  decidable_of_iff
    ((c.op = 0 ∧ c.bits = l ∧ c.val < 256) ∨
     (c.op = 16 + l ∧ l ≤ c.bits ∧ c.bits - l ≤ 5 ∧ 3 ≤ c.val ∧ c.val + 2 ^ (c.bits - l) ≤ 259) ∨
     (c.op = 96 ∧ c.bits = l ∧ c.val = 0) ∨
     ((c.op = 64 ∨ c.op = 75 ∨ c.op = 199) ∧ l ≤ c.bits ∧ c.bits ≤ l + 11 ∧ c.val = 0)) <| by
    obtain ⟨bits, op, val⟩ := c
    constructor
    · rintro (⟨rfl, rfl, h⟩ | ⟨rfl, h, h1, h2, h3⟩ | ⟨rfl, rfl, rfl⟩ | ⟨h, h1, h2, rfl⟩)
      · exact .lit val h
      · obtain ⟨extra, rfl⟩ := Nat.exists_eq_add_of_le h
        rw [Nat.add_sub_cancel_left] at h1 h3
        exact .base extra val h1 h2 h3
      · exact .eob
      · exact .invalid op bits h h1 h2
    · intro h
      cases h with
      | lit _ h => exact .inl ⟨rfl, rfl, h⟩
      | base extra _ h1 h2 h3 =>
        exact .inr (.inl ⟨rfl, by simp, by simpa using h1, h2, by simpa using h3⟩)
      | eob => exact .inr (.inr (.inl ⟨rfl, rfl, rfl⟩))
      | invalid _ _ h h1 h2 => exact .inr (.inr (.inr ⟨h, h1, h2, rfl⟩))

instance (l : Nat) (c : Code) : Decidable (DistEntry l c) :=
  decidable_of_iff
    ((c.op = 16 + l ∧ l ≤ c.bits ∧ c.bits - l ≤ 13 ∧ 1 ≤ c.val ∧
        c.val + 2 ^ (c.bits - l) ≤ 32769) ∨ (c.op = 64 ∧ c.bits = l ∧ c.val = 0)) <| by
    obtain ⟨bits, op, val⟩ := c
    constructor
    · rintro (⟨rfl, h, h1, h2, h3⟩ | ⟨rfl, rfl, rfl⟩)
      · obtain ⟨extra, rfl⟩ := Nat.exists_eq_add_of_le h
        rw [Nat.add_sub_cancel_left] at h1 h3
        exact .base extra val h1 h2 h3
      · exact .invalid
    · intro h
      cases h with
      | base extra _ h1 h2 h3 =>
        exact .inl ⟨rfl, by simp, by simpa using h1, h2, by simpa using h3⟩
      | invalid => exact .inr ⟨rfl, rfl, rfl⟩

/-- Entries at the distance that one of them takes are the same. -/
def Spaced (table : List Code) (c : Nat) : Prop :=
  ∀ p ∈ table.zip (table.drop (2 ^ c)), p.1.codeBits = c ∨ p.2.codeBits = c → p.1 = p.2

instance (table : List Code) (c : Nat) : Decidable (Spaced table c) :=
  inferInstanceAs (Decidable (∀ p ∈ table.zip (table.drop (2 ^ c)), _))

theorem Spaced.eq_add {table : List Code} {c i : Nat} (h : Spaced table c)
    (hi : i + 2 ^ c < table.length)
    (hc : (table.getD i default).codeBits = c ∨ (table.getD (i + 2 ^ c) default).codeBits = c) :
    table.getD i default = table.getD (i + 2 ^ c) default := by
  have hi' : i < table.length := Nat.lt_of_le_of_lt (Nat.le_add_right _ _) hi
  rw [List.getD_eq_getElem _ _ hi', List.getD_eq_getElem _ _ hi] at hc ⊢
  refine h (table[i], table[i + 2 ^ c]) ?_ hc
  rw [List.mem_iff_getElem]
  refine ⟨i, by simp only [List.length_zip, List.length_drop]; omega, ?_⟩
  simp only [List.getElem_zip, List.getElem_drop, Nat.add_comm (2 ^ c)]

/-- An entry stands at every index that agrees with its own in the bits it takes. -/
theorem Spaced.getD_mod {table : List Code} {c i : Nat} (h : Spaced table c)
    (hi : i < table.length) (hc : (table.getD i default).codeBits = c) :
    table.getD (i % 2 ^ c) default = table.getD i default := by
  induction i using Nat.strong_induction_on with
  | _ i ih =>
    rcases Nat.lt_or_ge i (2 ^ c) with hlt | hge
    · rw [Nat.mod_eq_of_lt hlt]
    · obtain ⟨k, rfl⟩ := Nat.exists_eq_add_of_le' hge
      have he := h.eq_add hi (.inr hc)
      rw [← he] at hc
      have hp := Nat.two_pow_pos c
      rw [Nat.add_mod_right, ih k (by omega) (by omega) hc, he]

theorem Spaced.getD_add {table : List Code} {c i : Nat} (h : Spaced table c) (k : Nat)
    (hi : i + 2 ^ c * k < table.length) (hc : (table.getD i default).codeBits = c) :
    table.getD (i + 2 ^ c * k) default = table.getD i default := by
  induction k with
  | zero => rfl
  | succ k ih =>
    rw [Nat.mul_succ, ← Nat.add_assoc] at hi ⊢
    have he := ih (Nat.lt_of_le_of_lt (Nat.le_add_right _ _) hi)
    rw [← h.eq_add hi (.inl (by rw [he]; exact hc)), he]

/-- A table without sub-tables is checked entry by entry. -/
theorem TwoLevel.of_list {P : Nat → Code → Prop} {table : List Code} {root : Nat}
    (hlen : table.length = 2 ^ root)
    (hP : ∀ c ∈ table, 1 ≤ min c.codeBits root ∧ P (min c.codeBits root) c ∧ (c.op = 0 ∨ 16 ≤ c.op))
    (hst : ∀ c ∈ List.range (root + 1), Spaced table c) :
    TwoLevel P (fun i => table.getD i default) root := by
  have hlt : ∀ v, v % 2 ^ root < table.length := fun v => by
    rw [hlen]
    exact Nat.mod_lt _ (Nat.two_pow_pos _)
  have hmem : ∀ v, table.getD (v % 2 ^ root) default ∈ table := fun v => by
    rw [List.getD_eq_getElem _ _ (hlt v)]
    exact List.getElem_mem _
  refine ⟨fun v => ?_, fun v w h => ?_, fun v w curr next h h1 h2 => ?_⟩
  · obtain ⟨h1, h2, -⟩ := hP _ (hmem v)
    exact .inl ⟨_, h1, Nat.min_le_right _ _, h2⟩
  · generalize hc : (table.getD (v % 2 ^ root) default).codeBits = c at h
    rcases Nat.lt_or_ge root c with hlt' | hge
    · rw [mod_two_pow_mono hlt'.le h]
    · have hs := hst c (List.mem_range.mpr (by omega))
      have hd := Nat.pow_dvd_pow 2 hge
      have hbase := hs.getD_mod (hlt v) hc
      rw [Nat.mod_mod_of_dvd _ hd, h, ← Nat.mod_mod_of_dvd w hd] at hbase
      have hup := hs.getD_add ((w % 2 ^ root) / 2 ^ c) (i := w % 2 ^ root % 2 ^ c)
        (by rw [Nat.mod_add_div]; exact hlt w) (by rw [hbase]; exact hc)
      rw [Nat.mod_add_div] at hup
      rw [hup, hbase]
  · have := (hP _ (hmem v)).2.2
    rw [h] at this
    simp only at this
    omega

theorem lenfix_twoLevel : TwoLevel LenEntry (fun i => lenfix.getD i default) 9 :=
  TwoLevel.of_list (by decide +kernel) (by decide +kernel) (by decide +kernel)

theorem distfix_twoLevel : TwoLevel DistEntry (fun i => distfix.getD i default) 5 :=
  TwoLevel.of_list (by decide +kernel) (by decide +kernel) (by decide +kernel)

end ZlibNg
