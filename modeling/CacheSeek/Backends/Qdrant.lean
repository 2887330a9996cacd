import CacheSeek.Backends.VectorMap
import CacheSeek.Lib.Text
import CacheSeek.Prefix.Keys
import CacheSeek.Approximate.Payload

namespace CacheSeek.Backends
open CacheSeek.Lib CacheSeek.Prefix CacheSeek.Approximate

/-- `s.replace(sub, "")`; `skip` characters of an occurrence are still to go. -/
def dropAll (sub : List Char) : Nat → List Char → List Char
  | _, [] => []
  | skip + 1, _ :: s => dropAll sub skip s
  | 0, c :: s => if sub <+: c :: s then dropAll sub (sub.length - 1) s else c :: dropAll sub 0 s

def stripChars (p : Char → Bool) (s : List Char) : List Char :=
  ((s.dropWhile p).reverse.dropWhile p).reverse

/-- White space outside ASCII. -/
def isWideSpace (c : Char) : Bool :=
  [0x85, 0xa0, 0x1680, 0x2028, 0x2029, 0x202f, 0x205f, 0x3000].contains c.toNat ||
    (0x2000 ≤ c.toNat && c.toNat ≤ 0x200a)

section
variable (decimal : Char → Option (Fin 10))

/-- A character as `int` reads it; `decimal` gives the value of a decimal digit outside ASCII. -/
def asciiChar (c : Char) : Char :=
  if c.toNat < 127 then c
  else if isWideSpace c then ' '
  else
    match decimal c with
    | some d => Nat.digitChar d
    | none => '?'

def readHexTail (acc : Nat) : List Char → Option Nat
  | [] => some acc
  | '_' :: c :: s => (Json.hexVal c).bind fun d => readHexTail (16 * acc + d) s
  | c :: s => (Json.hexVal c).bind fun d => readHexTail (16 * acc + d) s

def readHex (s : List Char) : Option Nat :=
  let s := stripChars isSpaceByte (s.map (asciiChar decimal))
  let s := if s.head? = some '+' then s.tail else s
  let s := if s.head? = some '0' ∧ (s[1]? = some 'x' ∨ s[1]? = some 'X') then
      (if s[2]? = some '_' then s.drop 3 else s.drop 2)
    else s
  match s with
  | [] => none
  | c :: s => (Json.hexVal c).bind fun d => readHexTail d s

/-- The number of `uuid.UUID(s)`. -/
def uuidInt (s : List Char) : Option Nat :=
  let digits := stripChars (fun c => c = '{' || c = '}') (dropAll "uuid:".toList 0 (dropAll "urn:".toList 0 s))
  let digits := digits.filter (· ≠ '-')
  if digits.length = 32 then readHex decimal digits else none

end

def hexDigits (n : Nat) : Nat → List Char
  | 0 => []
  | k + 1 => hexDigits (n / 16) k ++ [Json.hexDigit n]

def uuidText (n : Nat) : String :=
  let digits := hexDigits n 32
  String.ofList (digits.take 8 ++ '-' :: (digits.drop 8).take 4 ++ '-' :: (digits.drop 12).take 4 ++
    '-' :: (digits.drop 16).take 4 ++ '-' :: digits.drop 20)

def toPointId (decimal : Char → Option (Fin 10)) (sha256 : Bytes → Bytes) (cacheId : String) : String :=
  match uuidInt decimal cacheId.toList with
  | some n => uuidText n
  | none => uuidText ((uuidInt decimal ((hex (sha256 (utf8 cacheId))).toList.take 32)).getD 0)

structure ScoredPoint (P : Type) where
  id : String
  score : Rat
  payload : P
  deriving DecidableEq

/-- `qdrant-client` over a server: what its calls do and raise. The server's state is its own; `queries` are
the answers that a search may get. -/
structure QdrantClient (σ V P : Type) where
  collectionExists : σ → String → Except Failure Bool
  getCollection : σ → String → Except Failure (Option Nat)
  createCollection : σ → String → Nat → Except Failure Unit × σ
  upsert : σ → String → String → V → P → Except Failure Unit × σ
  delete : σ → String → List String → Except Failure Unit × σ
  queries : σ → String → V → Nat → Option Rat → Except Failure (List (ScoredPoint P)) → Prop

/-- What the store does with a payload; `cacheId` is `str` of the entry, and None is none. -/
structure PayloadDict (P : Type) extends PayloadReader P where
  cacheId : P → Option String
  setCacheId : P → String → P

/-- `payload.setdefault("cache_id", point_id)`. -/
def PayloadDict.tag {P : Type} (D : PayloadDict P) (payload : P) (pointId : String) : P :=
  if (D.cacheId payload).isSome then payload else D.setCacheId payload pointId

/-- The settings of a store. `reprIds` is `repr` of a list of texts. -/
structure QdrantConfig (V P : Type) where
  distance : String := "COSINE"
  distances : List String := ["COSINE", "EUCLID", "DOT", "MANHATTAN"]
  dim : V → Nat
  reader : PayloadDict P
  decimal : Char → Option (Fin 10)
  sha256 : Bytes → Bytes
  reprIds : List String → String

structure QdrantVectorStore (σ : Type) where
  dims : Dict String Nat := ∅
  idMap : Dict String (Dict String String) := ∅
  server : σ

def isMissing (err : String) : Bool :=
  let msg := err.toList.map Char.toLower
  decide ("not found".toList <:+: msg) || decide ("doesn't exist".toList <:+: msg) ||
    decide ("status_code=404".toList <:+: msg)

def clientError (call collection : String) (exc : Failure) : VectorStoreError :=
  .runtimeError ("QdrantVectorStore." ++ call ++ " failed collection=" ++ collection ++ " err_type=" ++
    exc.errType ++ " err=" ++ exc.err)

def dimensionMismatch (call collection : String) (got expected : Nat) : VectorStoreError :=
  .valueError ("QdrantVectorStore." ++ call ++ " vector dimension mismatch collection=" ++ collection ++
    " got=" ++ Nat.repr got ++ " expected=" ++ Nat.repr expected)

namespace QdrantVectorStore

variable {σ V P : Type} (cfg : QdrantConfig V P) (client : QdrantClient σ V P)

def ids (st : QdrantVectorStore σ) (collection : String) : Dict String String :=
  (st.idMap.get? collection).getD ∅

/-- `_id_map.setdefault(collection, {})`. -/
def touch (st : QdrantVectorStore σ) (collection : String) : QdrantVectorStore σ :=
  { st with idMap := st.idMap.set collection (st.ids collection) }

/-- The caller's id of a point: in its payload, else in the id map, else the point's own. -/
def resultId (st : QdrantVectorStore σ) (collection : String) (p : ScoredPoint P) : String :=
  (cfg.reader.cacheId p.payload).getD (((st.ids collection).get? p.id).getD p.id)

def toResult (st : QdrantVectorStore σ) (collection : String) (scoreThreshold : Option Rat)
    (p : ScoredPoint P) : Option (VectorSearchResult P) :=
  if scoreThreshold.any fun t => p.score < t then none
  else some ⟨st.resultId cfg collection p, p.score, cfg.reader.prompt p.payload,
    cfg.reader.savedSteps p.payload, p.payload⟩

/-- `answer` is what the client gives, if it is asked. -/
def search (st : QdrantVectorStore σ) (collection : String) (vector : V) (scoreThreshold : Option Rat)
    (answer : Except Failure (List (ScoredPoint P))) :
    Except VectorStoreError (List (VectorSearchResult P)) × QdrantVectorStore σ :=
  match (st.dims.get? collection).filter (· ≠ cfg.dim vector) with
  | some expected => (.error (dimensionMismatch "search" collection (cfg.dim vector) expected), st)
  | none =>
    match answer with
    | .error exc => if isMissing exc.err then (.ok [], st) else (.error (clientError "search" collection exc), st)
    | .ok points => (.ok (points.filterMap (st.toResult cfg collection scoreThreshold)), st.touch collection)

def probeVectorSize (st : QdrantVectorStore σ) (collection : String) : Option Nat × QdrantVectorStore σ :=
  match client.getCollection st.server collection with
  | .ok (some size) => (some size, { st with dims := st.dims.set collection size })
  | _ => (none, st)

/-- `collection_exists`, or `get_collection` where the client has no such method. -/
def collectionExists (st : QdrantVectorStore σ) (collection : String) : Except Failure Bool :=
  match client.collectionExists st.server collection with
  | .error exc =>
    if exc.errType = "AttributeError" then
      match client.getCollection st.server collection with
      | .ok _ => .ok true
      | .error _ => .ok false
    else .error exc
  | .ok found => .ok found

def ensureCollection (st : QdrantVectorStore σ) (collection : String) (vectorDim : Nat) :
    Except VectorStoreError Unit × QdrantVectorStore σ :=
  match st.collectionExists client collection with
  | .error exc => (.error (.runtimeError ("QdrantVectorStore.ensure_collection exists check failed collection=" ++
      collection ++ " err_type=" ++ exc.errType ++ " err=" ++ exc.err)), st)
  | .ok true =>
    let (size, st) := st.probeVectorSize client collection
    -- a size of zero counts as none
    (.ok (), { st with dims := st.dims.set collection ((size.filter (· ≠ 0)).getD vectorDim) })
  | .ok false =>
    if cfg.distance ∉ cfg.distances then
      (.error (.valueError ("Unsupported Qdrant distance metric '" ++ cfg.distance ++
        "'. Supported: COSINE | EUCLID | DOT.")), st)
    else
      match client.createCollection st.server collection vectorDim with
      | (.error exc, server) =>
          (.error (.runtimeError ("QdrantVectorStore.ensure_collection create failed collection=" ++
          collection ++ " dim=" ++ Nat.repr vectorDim ++ " err_type=" ++ exc.errType ++ " err=" ++ exc.err)),
          { st with server })
      | (.ok _, server) => (.ok (),
          { st with server, dims := st.dims.set collection vectorDim }.touch collection)

/-- `upsert` with the dimension at hand. -/
def upsertKnown (st : QdrantVectorStore σ) (collection pointId : String) (vector : V) (payload : P)
    (knownDim : Nat) : Except VectorStoreError Unit × QdrantVectorStore σ :=
  if cfg.dim vector ≠ knownDim then
    (.error (dimensionMismatch "upsert" collection (cfg.dim vector) knownDim), st)
  else
    let qid := toPointId cfg.decimal cfg.sha256 pointId
    match client.upsert st.server collection qid vector (cfg.reader.tag payload pointId) with
    | (.error exc, server) => (.error (.runtimeError ("QdrantVectorStore.upsert failed collection=" ++ collection ++
        " point_id=" ++ pointId ++ " err_type=" ++ exc.errType ++ " err=" ++ exc.err)), { st with server })
    | (.ok _, server) =>
      (.ok (), { st with server, idMap := st.idMap.set collection ((st.ids collection).set qid pointId) })

def upsert (st : QdrantVectorStore σ) (collection pointId : String) (vector : V) (payload : P) :
    Except VectorStoreError Unit × QdrantVectorStore σ :=
  match st.dims.get? collection with
  | some knownDim => st.upsertKnown cfg client collection pointId vector payload knownDim
  | none =>
    match st.ensureCollection cfg client collection (cfg.dim vector) with
    | (.error e, st) => (.error e, st)
    | (.ok _, st) =>
      st.upsertKnown cfg client collection pointId vector payload
        ((st.dims.get? collection).getD (cfg.dim vector))

def delete (st : QdrantVectorStore σ) (collection : String) (pointIds : List String) :
    Except VectorStoreError Unit × QdrantVectorStore σ :=
  if pointIds = [] then (.ok (), st)
  else
    let qids := pointIds.map (toPointId cfg.decimal cfg.sha256)
    match client.delete st.server collection qids with
    | (.error exc, server) =>
      if isMissing exc.err then (.ok (), { st with server })
      else (.error (.runtimeError ("QdrantVectorStore.delete failed collection=" ++ collection ++ " ids=" ++
        cfg.reprIds pointIds ++ " err_type=" ++ exc.errType ++ " err=" ++ exc.err)), { st with server })
    | (.ok _, server) =>
      let st : QdrantVectorStore σ := { st with server }
      match st.idMap.get? collection with
      | none => (.ok (), st)
      | some ids =>
        let ids := (pointIds.zip qids).foldl (fun ids e => (ids.erase e.2).erase e.1) ids
        (.ok (), { st with idMap := st.idMap.set collection ids })

def reopen (st : QdrantVectorStore σ) : QdrantVectorStore σ := { server := st.server }

/-- The operations of a vector store; `vectorDim` is what `ensure_collection` is called with. -/
def step (vectorDim : Nat) (st : QdrantVectorStore σ) : VectorOp V P → QdrantVectorStore σ
  | .ensure c => (st.ensureCollection cfg client c vectorDim).2
  | .upsert c p v payload => (st.upsert cfg client c p v payload).2
  | .delete c ps => (st.delete cfg client c ps).2
  -- of what a search gets, no more is kept than that the collection has an id map
  | .search c v _ t => (st.search cfg c v t (.ok [])).2
  | .reopen => st.reopen

def Answers (st : QdrantVectorStore σ) (c : String) (q : V) (limit : Nat) (scoreThreshold : Option Rat)
    (res : List (VectorSearchResult P)) : Prop :=
  ∃ answer, client.queries st.server c q (max 1 limit) scoreThreshold answer ∧
    (st.search cfg c q scoreThreshold answer).1 = .ok res

end QdrantVectorStore

end CacheSeek.Backends
