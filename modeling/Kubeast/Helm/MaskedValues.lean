import Kubeast.Foundation.Text
import Kubeast.Foundation.Value
import Mathlib.Data.List.Infix

/-! The values of a release sent back with what they hide (`internal/helm/masked_values.go`). A Go
map is held as its members in the order of their keys, which is the order every loop here takes. -/
namespace Kubeast.Helm

section Values

mutual

def Ordered : Value → Prop
  | .list items => OrderedItems items
  | .map ms => (ms.map Prod.fst).Pairwise (· < ·) ∧ OrderedMembers ms
  | _ => True

def OrderedItems : List Value → Prop
  | [] => True
  | v :: vs => Ordered v ∧ OrderedItems vs

def OrderedMembers : List (String × Value) → Prop
  | [] => True
  | (_, v) :: ms => Ordered v ∧ OrderedMembers ms

end

/-- A Go map. -/
structure Values where
  members : List (String × Value)
  ordered : Ordered (.map members)

/-- `maskMark`. -/
def maskMark : String := "<REDACTED:"

def hasMark (s : String) : Bool := decide (maskMark.toList <:+: s.toList)

mutual

def holdsMask : Value → Bool
  | .str s => hasMark s
  | .map ms => holdsMaskMembers ms
  | .list items => holdsMaskItems items
  | _ => false

def holdsMaskItems : List Value → Bool
  | [] => false
  | v :: vs => holdsMask v || holdsMaskItems vs

def holdsMaskMembers : List (String × Value) → Bool
  | [] => false
  | (key, v) :: ms => hasMark key || holdsMask v || holdsMaskMembers ms

end

end Values

section Places

/-- An item that was shown nowhere has the index -1. -/
inductive Step
  | key (k : String)
  | item (i : Option ℕ)
  deriving DecidableEq

/-- Where a value stands, from the top. -/
abbrev Place := List Step

def placeOfKey (place key : String) : String := if place = "" then key else place ++ "." ++ key

def itemIndex : Option ℕ → String
  | some i => toString i
  | none => "-1"

/-- The text of a place. -/
def placeText (place : Place) : String :=
  place.foldl (fun text step => match step with
    | .key k => placeOfKey text k
    | .item i => text ++ "[" ++ itemIndex i ++ "]") ""

mutual

/-- `maskPlaces`. -/
def maskPlaces (place : Place) : Value → List Place
  | .str s => if hasMark s then [place] else []
  | .map ms => maskPlacesMembers place ms
  | .list items => maskPlacesItems place 0 items
  | _ => []

def maskPlacesItems (place : Place) : ℕ → List Value → List Place
  | _, [] => []
  | i, v :: vs => maskPlaces (place ++ [.item (some i)]) v ++ maskPlacesItems place (i + 1) vs

def maskPlacesMembers (place : Place) : List (String × Value) → List Place
  | [] => []
  | (key, v) :: ms => maskPlaces (place ++ [.key key]) v ++ maskPlacesMembers place ms

end

end Places

section Match

/-- How `fmt` and `strconv` write the floats of values: with `%#v`, and in the three forms of
`addTexts`. -/
structure FloatFormats where
  goSyntax : ℚ → List Char
  texts : ℚ → List String

variable (tables : Text.CharTables) (floats : FloatFormats)

/-- `strconv.Quote`. -/
def quotedText (s : String) : List Char :=
  '"' :: s.toList.flatMap (fun c => (Text.quoteRune tables c).toList) ++ ['"']

/-- How `%#v` starts a list and a map, and writes nil inside another value. -/
def listType : List Char := "[]interface \x7b\x7d\x7b".toList

def mapType : List Char := "map[string]interface \x7b\x7d\x7b".toList

def innerNil : List Char := "interface \x7b\x7d(nil)".toList

def boolText (b : Bool) : List Char := (if b then "true" else "false").toList

mutual

/-- `%#v` of a value inside another. -/
def innerText : Value → List Char
  | .null => innerNil
  | .bool b => boolText b
  | .num q => floats.goSyntax q
  | .str s => quotedText tables s
  | .list items => listType ++ itemsText items ++ ['}']
  | .map ms => mapType ++ membersText ms ++ ['}']

def itemsText : List Value → List Char
  | [] => []
  | [v] => innerText v
  | v :: vs => innerText v ++ [',', ' '] ++ itemsText vs

def membersText : List (String × Value) → List Char
  | [] => []
  | [(key, v)] => quotedText tables key ++ ':' :: innerText v
  | (key, v) :: ms => quotedText tables key ++ ':' :: innerText v ++ [',', ' '] ++ membersText ms

end

/-- `itemText`: `%#v`. -/
def itemText : Value → List Char
  | .null => "<nil>".toList
  | v => innerText tables floats v

/-- Where items of a text stand. -/
def indicesOf (p : Value → Bool) (items : List Value) (text : List Char) : List ℕ :=
  (List.range items.length).filter fun i =>
    items[i]?.any fun item => p item && decide (itemText tables floats item = text)

def shownAt (shown : List Value) (text : List Char) : List ℕ :=
  indicesOf tables floats (fun _ => true) shown text

def sentAt (sent : List Value) (text : List Char) : List ℕ :=
  indicesOf tables floats holdsMask sent text

/-- The item shown with the same text, when all items of that text stay. -/
def groupMatch (sent shown : List Value) (i : ℕ) : Option ℕ :=
  (sent[i]?.filter holdsMask).bind fun item =>
    let text := itemText tables floats item
    if (shownAt tables floats shown text).length = (sentAt tables floats sent text).length then
      (shownAt tables floats shown text)[(sentAt tables floats sent text).idxOf i]?
    else none

/-- The sent items with placeholders whose text was not shown. -/
def leftOver (sent shown : List Value) : List ℕ :=
  (List.range sent.length).filter fun i => sent[i]?.any fun item =>
    holdsMask item && (shownAt tables floats shown (itemText tables floats item)).isEmpty

def matched (sent shown : List Value) : List ℕ :=
  (List.range sent.length).filterMap (groupMatch tables floats sent shown)

/-- `matchItems`: which shown item a sent item stands for. -/
def matchItems (sent shown : List Value) (i : ℕ) : Option ℕ :=
  if leftOver tables floats sent shown = [i] ∧ sent.length = shown.length ∧
      i ∉ matched tables floats sent shown then some i
  else groupMatch tables floats sent shown i

end Match

section Walk

mutual

/-- `addTexts`: how a kept value can read in an error. -/
def addTexts (floats : FloatFormats) : Value → List String
  | .str s => (if s = "" then [] else [s]) ++
      ((s.toList.splitOn '\n').map fun line => Text.trimSpace (String.ofList line)).filter
        fun line => line ≠ "" ∧ line ≠ s
  | .num q => floats.texts q
  | .list items => addTextsItems floats items
  | .map ms => addTextsMembers floats ms
  | _ => []

def addTextsItems (floats : FloatFormats) : List Value → List String
  | [] => []
  | v :: vs => addTexts floats v ++ addTextsItems floats vs

def addTextsMembers (floats : FloatFormats) : List (String × Value) → List String
  | [] => []
  | (_, v) :: ms => addTexts floats v ++ addTextsMembers floats ms

end

/-- What a walk notes. A kept placeholder is noted with its place, beside the one it was shown at. -/
structure Notes where
  kept : List (Place × Place)
  refused : List Place
  texts : List String

namespace Notes

def none : Notes := ⟨[], [], []⟩

def append (a b : Notes) : Notes := ⟨a.kept ++ b.kept, a.refused ++ b.refused, a.texts ++ b.texts⟩

end Notes

def itemsOf : Value → List Value
  | .list items => items
  | _ => []

variable (tables : Text.CharTables) (floats : FloatFormats)

mutual

/-- `walk`. A value that is not there is null, as `real` is without `hasReal`. -/
def walk (place shownPlace : Place) : Value → Value → Value → Bool → Value × Notes
  | .str v, shown, real, hasReal =>
    if hasMark v = false then (.str v, Notes.none)
    else if shown = .str v ∧ hasReal then (real, ⟨[(place, shownPlace)], [], addTexts floats real⟩)
    else (.str v, ⟨[], [place], []⟩)
  | .map ms, shown, real, _ =>
    let (out, notes) := walkMembers place shownPlace shown real ms
    (.map out, notes)
  | .list items, shown, real, _ =>
    let (out, notes) := walkItems place shownPlace (itemsOf shown) (itemsOf real)
      (matchItems tables floats items (itemsOf shown)) 0 items
    (.list out, notes)
  | sent, _, _, _ => (sent, Notes.none)
termination_by structural sent => sent

def walkMembers (place shownPlace : Place) (shown real : Value) :
    List (String × Value) → List (String × Value) × Notes
  | [] => ([], Notes.none)
  | (key, v) :: ms =>
    let (rest, notes) := walkMembers place shownPlace shown real ms
    if hasMark key then (rest, Notes.append ⟨[], [place ++ [.key key]], []⟩ notes)
    else
      let value := real.get key
      let (out, noted) := walk (place ++ [.key key]) (shownPlace ++ [.key key]) v
        ((shown.get key).getD .null) (value.getD .null) value.isSome
      ((key, out) :: rest, noted.append notes)
termination_by structural ms => ms

def walkItems (place shownPlace : Place) (shown real : List Value) (source : ℕ → Option ℕ) :
    ℕ → List Value → List Value × Notes
  | _, [] => ([], Notes.none)
  | i, item :: items =>
    let hit := (source i).filter (· < real.length)
    let (out, noted) := walk (place ++ [.item (some i)]) (shownPlace ++ [.item (source i)]) item
      ((hit.bind (shown[·]?)).getD .null) ((hit.bind (real[·]?)).getD .null) hit.isSome
    let (rest, notes) := walkItems place shownPlace shown real source (i + 1) items
    (out :: rest, noted.append notes)
termination_by structural _ items => items

end

/-- `notKept`. -/
def notKept : List String → List String → List String
  | _, [] => []
  | kept, place :: places =>
    if place ∈ kept then notKept (kept.erase place) places else place :: notKept kept places

/-- `valuesDiffer`. -/
def valuesDiffer (sent read : List (String × Value)) : Bool :=
  if sent.length = 0 ∧ read.length = 0 then false else decide (Value.map sent ≠ .map read)

structure KeptValues where
  places : List String
  changed : List String
  refused : List String
  texts : List String
  differs : Bool

end Walk

end Kubeast.Helm

/-! No shown item is taken by two sent items. -/
namespace Kubeast.Helm

variable {tables : Text.CharTables} {floats : FloatFormats}

theorem mem_indicesOf {p : Value → Bool} {items : List Value} {text : List Char} {i : ℕ} :
    i ∈ indicesOf tables floats p items text ↔
      ∃ item, items[i]? = some item ∧ p item = true ∧ itemText tables floats item = text := by
  rw [indicesOf, List.mem_filter, List.mem_range]
  constructor
  · rintro ⟨-, h⟩
    cases hitem : items[i]? with
    | none => simp [hitem] at h
    | some item => exact ⟨item, rfl, by simpa [hitem] using h⟩
  · rintro ⟨item, hitem, hp, htext⟩
    have hlt := (List.getElem?_eq_some_iff.mp hitem).1
    exact ⟨hlt, by simp [hitem, hp, htext]⟩

theorem indicesOf_nodup {p : Value → Bool} {items : List Value} {text : List Char} :
    (indicesOf tables floats p items text).Nodup :=
  List.nodup_range.filter _

/-- A match of a group: the two stand at one index among those of the text. -/
theorem groupMatch_eq_some {sent shown : List Value} {i j : ℕ} :
    groupMatch tables floats sent shown i = some j ↔
      ∃ item, sent[i]? = some item ∧ holdsMask item = true ∧
        (shownAt tables floats shown (itemText tables floats item)).length =
          (sentAt tables floats sent (itemText tables floats item)).length ∧
        (shownAt tables floats shown (itemText tables floats item))[
          (sentAt tables floats sent (itemText tables floats item)).idxOf i]? = some j := by
  rw [groupMatch, Option.bind_eq_some_iff]
  constructor
  · rintro ⟨item, hitem, h⟩
    rw [Option.filter_eq_some_iff] at hitem
    dsimp only at h
    split_ifs at h with hlen
    exact ⟨item, hitem.1, hitem.2, hlen, h⟩
  · rintro ⟨item, hitem, hmask, hlen, h⟩
    refine ⟨item, Option.filter_eq_some_iff.mpr ⟨hitem, hmask⟩, ?_⟩
    dsimp only
    rw [if_pos hlen]
    exact h

theorem groupMatch_injective {sent shown : List Value} {i i' j : ℕ}
    (h : groupMatch tables floats sent shown i = some j)
    (h' : groupMatch tables floats sent shown i' = some j) : i = i' := by
  obtain ⟨item, hitem, hmask, -, hj⟩ := groupMatch_eq_some.mp h
  obtain ⟨item', hitem', hmask', -, hj'⟩ := groupMatch_eq_some.mp h'
  have htext : itemText tables floats item' = itemText tables floats item := by
    obtain ⟨w, hw, -, htext⟩ := mem_indicesOf.mp (List.mem_of_getElem? hj)
    obtain ⟨w', hw', -, htext'⟩ := mem_indicesOf.mp (List.mem_of_getElem? hj')
    obtain rfl : w = w' := Option.some.inj (hw.symm.trans hw')
    rw [← htext, htext']
  rw [htext] at hj'
  have hbound := (List.getElem?_eq_some_iff.mp hj).1
  have hindex := (List.getElem?_inj hbound indicesOf_nodup).mp (hj.trans hj'.symm)
  have hmem : i ∈ sentAt tables floats sent (itemText tables floats item) :=
    mem_indicesOf.mpr ⟨item, hitem, hmask, rfl⟩
  exact (List.idxOf_inj hmem).mp hindex

theorem mem_matched {sent shown : List Value} {j : ℕ} :
    j ∈ matched tables floats sent shown ↔ ∃ i, groupMatch tables floats sent shown i = some j := by
  rw [matched, List.mem_filterMap]
  constructor
  · rintro ⟨i, -, h⟩
    exact ⟨i, h⟩
  · rintro ⟨i, h⟩
    obtain ⟨item, hitem, -⟩ := groupMatch_eq_some.mp h
    exact ⟨i, List.mem_range.mpr (List.getElem?_eq_some_iff.mp hitem).1, h⟩

/-- Two sent items never take one shown item. -/
theorem matchItems_injective {sent shown : List Value} {i i' j : ℕ}
    (h : matchItems tables floats sent shown i = some j)
    (h' : matchItems tables floats sent shown i' = some j) : i = i' := by
  rw [matchItems] at h h'
  split_ifs at h h' with hleft hleft' hleft'
  · rw [Option.some.inj h, Option.some.inj h']
  · obtain rfl := Option.some.inj h
    exact absurd (mem_matched.mpr ⟨i', h'⟩) hleft.2.2
  · obtain rfl := Option.some.inj h'
    exact absurd (mem_matched.mpr ⟨i, h⟩) hleft'.2.2
  · exact groupMatch_injective h h'

end Kubeast.Helm
