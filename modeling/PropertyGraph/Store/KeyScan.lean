/-
Scanning the keys of a store page by page. A scan keeps no hold on the store: each
page is fetched from what the store holds at that moment, strictly after the last
key of the page before.

`KeyScan.advance` does one piece of work: it fetches a page, or looks at one key of
the page at hand. It is written over any fetch, so that it says the same of every
store.
-/
import PropertyGraph.Key.Pattern

namespace PropertyGraph

/-- The most keys a page holds. -/
def pageSize : Nat := 256

/-- A page of keys: at most `limit` keys that begin with `stem`, in order, after
`after` if that is given. -/
abbrev Fetch := (stem : String) → (after : Option String) → (limit : Nat) →
  Except Error (List String)

/-- What one piece of work on a scan brings. -/
inductive ScanEvent where
  | key (key : String)
  | failed (error : Error)
  /-- Nothing yet, but there is more to do. -/
  | skip
  | done
deriving DecidableEq

/-- A scan under way. -/
structure KeyScan where
  /-- A key is wanted if one of these matches it, or if there are none. -/
  patterns : List KeyPattern
  /-- The ranges still to be visited, by the text their keys begin with. -/
  stems : List String
  /-- What is left of the page at hand. -/
  page : List String
  /-- The range of a full page and its last key: there may be more after it. -/
  resume : Option (String × String)
  /-- Whether ranges may overlap, so that a key is to be remembered. -/
  distinct : Bool
  /-- The remembered keys. -/
  seen : List String
deriving DecidableEq

namespace KeyScan

/-- The ranges that hold every key some pattern matches. -/
def ranges (patterns : List KeyPattern) : List String :=
  if patterns.isEmpty || patterns.any KeyPattern.isEverything then [""]
  else patterns.map KeyPattern.stem

/-- A scan for the keys that match one of the patterns, or for all keys. -/
def start (patterns : List KeyPattern) : KeyScan :=
  let stems := ranges patterns
  ⟨patterns, stems, [], none, stems.length > 1, []⟩

/-- Whether a key is wanted. -/
def wants (s : KeyScan) (key : String) : Bool :=
  (s.patterns.isEmpty || s.patterns.any (·.accepts key)) && !(s.distinct && s.seen.contains key)

/-- The scan after a page of a range; a full page may have another after it. -/
def turn (s : KeyScan) (stem : String) (keys : List String) : KeyScan :=
  { s with
    page := keys
    resume := if keys.length == pageSize then keys.getLast?.map (stem, ·) else none }

/-- Fetches a page. A failing fetch ends the scan. -/
def load (fetch : Fetch) (s : KeyScan) (stem : String) (after : Option String) :
    ScanEvent × KeyScan :=
  match fetch stem after pageSize with
  | .ok keys => (.skip, s.turn stem keys)
  | .error e => (.failed e, { s with stems := [], resume := none })

/-- One piece of work. -/
def advance (fetch : Fetch) (s : KeyScan) : ScanEvent × KeyScan :=
  match s.page with
  | key :: rest =>
    let left := { s with page := rest }
    if s.wants key then
      (.key key, if s.distinct then { left with seen := key :: s.seen } else left)
    else (.skip, left)
  | [] =>
    match s.resume with
    | some (stem, last) => s.load fetch stem (some last)
    | none =>
      match s.stems with
      | stem :: rest => { s with stems := rest }.load fetch stem none
      | [] => (.done, s)

end KeyScan

/-- A stream of keys: a scan, and an error that is to come once, before the item with
the given number of items in front of it. -/
structure KeyStream where
  scan : KeyScan
  interruption : Option (Nat × Error)
deriving DecidableEq

namespace KeyStream

/-- A stream that nothing interrupts. -/
def ofScan (scan : KeyScan) : KeyStream := ⟨scan, none⟩

/-- Enough pieces of work to come to the end in a store of `size` keys that does not
change meanwhile: each range is fetched at most once for every key and twice more,
and each of its keys is looked at once. -/
def effort (s : KeyStream) (size : Nat) : Nat :=
  s.scan.page.length + (s.scan.stems.length + 1) * (2 * size + 2) + 2

end KeyStream

end PropertyGraph
