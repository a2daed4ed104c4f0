import InfraModule.Error
import InfraModule.Yaml.RawEvent.OfTokens

/-!
# Events with spans

Uninterpreted events have one place each; here they are given spans. The start of a collection stops
where the collection's end is. It is moved back to the event that follows it when that comes
earlier, for the place of a block mapping is the colon of its first key. A scalar stops after its
last character; for a plain one that is computed from its text as if it stood on one line, and a
block has no extent. A missing value counts as the plain scalar `~`, and that as the empty text.

References back to anchors are left out; the first of them is the reason why a document with any is
refused.
-/

namespace InfraModule

open Yaml

namespace Event

/-! ## Scalars -/

/-- The position after the closing quote, from the characters after the opening one. `last` is the
position of the character before them, 0 being the column of a line end. Between double quotes a
backslash takes the next character with it, and between single quotes a quote takes another. -/
def closingQuote? (quote : Char) (last : Mark) : List Char → Option Mark
  | [] => none
  | '\n' :: cs => closingQuote? quote ⟨last.line + 1, 0⟩ cs
  | c :: cs =>
    let here : Mark := ⟨last.line, last.column + 1⟩
    if c = '\\' ∧ quote = '\x22' then
      match cs with
      | [] => none
      | '\n' :: cs => closingQuote? quote ⟨here.line + 1, 0⟩ cs
      | _ :: cs => closingQuote? quote ⟨here.line, here.column + 1⟩ cs
    else if c = quote then
      match cs with
      | '\x27' :: cs =>
        if quote = '\x27' then closingQuote? quote ⟨here.line, here.column + 1⟩ cs
        else some ⟨here.line, here.column + 1⟩
      | _ => some ⟨here.line, here.column + 1⟩
    else closingQuote? quote here cs

/-- The characters of a text from each of its places on, after those of `found`. -/
def suffixesFrom (found : Array (List Char)) : List Char → Array (List Char)
  | [] => found
  | c :: cs => suffixesFrom (found.push (c :: cs)) cs

/-- The characters of a text from each of its places on. -/
def suffixes (source : List Char) : Array (List Char) :=
  suffixesFrom #[] source

/-- Places among those of `found` are kept, and each later one has what is left from there on. -/
theorem getElem?_suffixesFrom (found : Array (List Char)) (source : List Char) (i : Nat) :
    (suffixesFrom found source)[i]? =
      if i < found.size then found[i]?
      else if i < found.size + source.length then some (source.drop (i - found.size))
      else none := by
  induction source generalizing found with
  | nil =>
    simp only [suffixesFrom, List.length_nil, Nat.add_zero]
    split
    · rfl
    · exact Array.getElem?_eq_none (by omega)
  | cons c cs ih =>
    rw [suffixesFrom, ih, Array.size_push]
    rcases Nat.lt_trichotomy i found.size with h | h | h
    · simp [h, Nat.lt_succ_of_lt h, Array.getElem_push_lt]
    · subst h
      simp
    · have next : i - found.size = i - (found.size + 1) + 1 := by omega
      have hnot : ¬ i < found.size := by omega
      have hnot' : ¬ i < found.size + 1 := by omega
      simp only [List.length_cons, hnot, hnot', ↓reduceIte, next, List.drop_succ_cons]
      congr 1
      simp only [eq_iff_iff]
      omega

/-- The entry at a place is what is left of the text from there on, and beyond it there is none. -/
theorem getElem?_suffixes (source : List Char) (i : Nat) :
    (suffixes source)[i]? = if i < source.length then some (source.drop i) else none := by
  simp [suffixes, getElem?_suffixesFrom]

/-- The position after a quoted scalar whose opening quote is the character at `index`, in a text
with these suffixes. -/
def quotedStop? (suffixes : Array (List Char)) (index : Nat) (start : Mark) : Option Mark :=
  match suffixes[index]? with
  | some (quote :: cs) => closingQuote? quote start cs
  | _ => none

/-- The position after a plain scalar. -/
def plainStop (text : String) (start : Mark) : Mark :=
  ⟨start.line, start.column + text.length⟩

/-- Where an event stops, the starts of collections aside. -/
def stopOf (suffixes : Array (List Char)) (e : RawEvent) : Mark :=
  let start := e.place.mark
  match e.kind with
  | .missing => plainStop "~" start
  | .scalar .plain text _ => plainStop text start
  | .scalar .singleQuoted _ _ => (quotedStop? suffixes e.place.index start).getD start
  | .scalar .doubleQuoted _ _ => (quotedStop? suffixes e.place.index start).getD start
  | _ => start

/-- What an event reports. -/
def kindOf? : RawEventKind → Option EventKind
  | .nothing => none
  | .alias _ => none
  | .streamStart => some .streamStart
  | .streamEnd => some .streamEnd
  | .documentStart => some .documentStart
  | .documentEnd => some .documentEnd
  | .missing => some (.scalar "" none)
  | .scalar .plain "~" properties => some (.scalar "" properties.tag)
  | .scalar _ text properties => some (.scalar text properties.tag)
  | .sequenceStart properties => some (.sequenceStart properties.tag)
  | .sequenceEnd => some .sequenceEnd
  | .mappingStart properties => some (.mappingStart properties.tag)
  | .mappingEnd => some .mappingEnd

/-! ## Collections -/

/-- Events that are being given spans. -/
structure Collector where
  /-- The events so far. -/
  events : Array Event := #[]
  /-- The places of the open collections' starts among them, the innermost first. -/
  openings : List Nat := []
  /-- The place of the last event, if it starts a collection. -/
  unfilled : Option Nat := none

namespace Collector

/-- Changes the event at a place, if there is one. -/
def amend (events : Array Event) (place : Option Nat) (change : Event → Event) : Array Event :=
  match place with
  | some place => events.modify place change
  | none => events

/-- The event moved back to a mark, if that is earlier. -/
def pullBack (mark : Mark) (e : Event) : Event :=
  if mark < e.start then { e with start := mark } else e

/-- Adds an event. -/
def add (suffixes : Array (List Char)) : Collector → RawEvent → Collector
  | ⟨events, openings, unfilled⟩, e =>
    match kindOf? e.kind with
    | none => ⟨events, openings, unfilled⟩
    | some kind =>
      let mark := e.place.mark
      let events := amend events unfilled (pullBack mark)
      match kind.role with
      | .opening =>
        let place := events.size
        ⟨events.push ⟨kind, mark, mark⟩, place :: openings, some place⟩
      | .closing =>
        let events := amend events openings.head? ({ · with stop := mark })
        ⟨events.push ⟨kind, mark, mark⟩, openings.tail, none⟩
      | _ => ⟨events.push ⟨kind, mark, stopOf suffixes e⟩, openings, none⟩

end Collector

/-- The events of a text with spans, from its uninterpreted ones. -/
def collect (source : List Char) (raw : List RawEvent) : List Event :=
  (raw.foldl (Collector.add (suffixes source)) {}).events.toList

/-- The position of the first reference back to an anchor. -/
def firstAlias? (raw : List RawEvent) : Option Mark :=
  raw.findSome? fun e =>
    match e.kind with
    | .alias _ => some e.place.mark
    | _ => none

/-- The events of a text with spans, if it has no reference back to an anchor. -/
def ofRaw (source : List Char) (raw : List RawEvent) : Except ParseError (List Event) :=
  match firstAlias? raw with
  | some mark => .error (.unsupportedAlias mark)
  | none => .ok (collect source raw)

/-- The events of a text. -/
def ofText (text : String) : Except ParseError (List Event) :=
  match RawEvent.ofText .v12 text with
  | none => .error .malformedText
  | some raw => ofRaw text.toList raw

end Event

end InfraModule
