import RetryVerdict.Field.Basic

/-!
# Field — requests to a map of header fields

A `Request` is one use of the map, as data; `Fields.serve` answers it and gives the map after it.
A sequence of requests is a history of the map, and `Fields.serveAll` answers each in its turn.
-/

namespace RetryVerdict.Fields

/-- One use of a map of header fields. -/
inductive Request where
  | first (name : Bytes)
  | values (name : Bytes)
  | contains (name : Bytes)
  | insert (name value : Bytes)
  | append (name value : Bytes)
  | insertIfValid (name value : Bytes)
  | appendIfValid (name value : Bytes)
  | erase (name : Bytes)
  /-- Start again from raw lines. -/
  | read (lines : List Bytes)
deriving DecidableEq, Repr

/-- What a request is answered. -/
inductive Reply where
  | value (v : Option Bytes)
  | values (vs : List Bytes)
  | flag (b : Bool)
  | done
deriving DecidableEq, Repr

/-- The reply to a request, or the fault that refuses it, and the map afterwards. -/
def serve (f : Fields) : Request → Except Fault Reply × Fields
  | .first name => (.ok (.value (f.first? name)), f)
  | .values name => (.ok (.values (f.values name)), f)
  | .contains name => (.ok (.flag (f.contains name)), f)
  | .insert name value =>
    match f.insert name value with
    | .ok (previous, g) => (.ok (.value previous), g)
    | .error e => (.error e, f)
  | .append name value =>
    match f.append name value with
    | .ok (existed, g) => (.ok (.flag existed), g)
    | .error e => (.error e, f)
  | .insertIfValid name value =>
    let (taken, g) := f.insertIfValid name value
    (.ok (.flag taken), g)
  | .appendIfValid name value =>
    let (taken, g) := f.appendIfValid name value
    (.ok (.flag taken), g)
  | .erase name =>
    let (first, g) := f.erase name
    (.ok (.value first), g)
  | .read lines => (.ok .done, ofLines lines)

/-- The reply to each request of a history, and the map after it. -/
def serveAll (f : Fields) : List Request → List (Except Fault Reply × Fields)
  | [] => []
  | r :: rs => f.serve r :: serveAll (f.serve r).2 rs

/-- The map after a history of requests. -/
def afterAll (f : Fields) (rs : List Request) : Fields := rs.foldl (fun g r => (g.serve r).2) f

end RetryVerdict.Fields
