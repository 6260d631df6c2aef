import TinySweeper.Findings.Finding
import TinySweeper.Framed

/-!
# Recording and replaying model calls

Answers are filed under a hash of what was asked, in the order of the calls, and
served from these files again.
-/

namespace TinySweeper.Harness

open Text Findings Framed

inductive Json where
  | null
  | bool (value : Bool)
  | number (literal : Text)
  | string (value : Text)
  | array (items : List Json)
  | object (entries : List (Text × Json))

mutual

/-- A value with its object keys sorted at every depth. -/
def canonicalSchema : Json → Json
  | .object entries => .object ((canonicalEntries entries).insertionSort fun a b => a.1 ≤ b.1)
  | .array items => .array (canonicalItems items)
  | other => other

def canonicalItems : List Json → List Json
  | [] => []
  | item :: items => canonicalSchema item :: canonicalItems items

def canonicalEntries : List (Text × Json) → List (Text × Json)
  | [] => []
  | entry :: entries => (entry.1, canonicalSchema entry.2) :: canonicalEntries entries

end

inductive Role where
  | system
  | user
  | assistant
  deriving DecidableEq

def roleName : Role → Text
  | .system => "system".toList
  | .user => "user".toList
  | .assistant => "assistant".toList

structure Message where
  role : Role
  content : Text
  images : List Text
  deriving DecidableEq

structure ModelRequest where
  model : Text
  messages : List Message
  schema : Json
  schemaName : Text
  reasoningEffort : Option Text
  maxTokens : UInt32

structure ModelResponse (υ : Type) where
  value : Json
  model : Text
  usage : υ

inductive ModelError (υ : Type) where
  | executionRefused (usage : Option υ) (accountingComplete : Bool)
  | other (usage : Option υ)

/-- The repository a review may look into, by the operations `Q` it answers. -/
structure Tree (Q : Type) where
  revision : Option Text
  answer : Q → Except Text Json

/-- A repository operation and a digest of its result. -/
structure RecordedQuery (Q : Type) where
  query : Q
  result : Text

structure ReviewContext (Q : Type) where
  policy : Json
  revision : Option Text
  queries : List (RecordedQuery Q)

structure RecordedMessage where
  role : Text
  content : Text
  images : List Text

/-- One recorded call. -/
structure Take (υ Q : Type) where
  key : Text
  modelRequested : Text
  modelAnswered : Text
  schemaName : Text
  usage : υ
  value : Json
  reviewContext : Option (ReviewContext Q)
  prompt : Option (List RecordedMessage)

/-- What a cassette takes from elsewhere: hashing, the text of a value, files, adding usage. -/
structure Outside (υ Q Γ : Type) where
  sha256 : List UInt8 → List UInt8
  render : Json → Text
  encode : Take υ Q → Γ
  decode : Γ → Except Text (Take υ Q)
  add : υ → υ → υ
  zero : υ

section Cassette

variable {υ Q Γ : Type} (outside : Outside υ Q Γ)

def hexDigest (bytes : List UInt8) : Text := bytes.flatMap hexByte

def leBytes (n : UInt32) : List UInt8 :=
  (List.range 4).map fun i => UInt8.ofNat (n.toNat / 256 ^ i)

def messageFields (message : Message) : List Text :=
  roleName message.role :: message.content ::
    message.images.flatMap fun image => ["img".toList, image]

/-- What identifies a request. -/
def hashInput (request : ModelRequest) : List UInt8 :=
  utf8 request.model ++ 0 :: (utf8 request.schemaName ++ 0 ::
    ((match request.reasoningEffort with
      | some effort => utf8 "reasoning-effort".toList ++ 0 :: (utf8 effort ++ [0])
      | none => []) ++
    (utf8 (outside.render (canonicalSchema request.schema)) ++ 0 ::
      (leBytes request.maxTokens ++ framed (request.messages.flatMap messageFields)))))

def key (request : ModelRequest) : Text :=
  hexDigest ((outside.sha256 (hashInput outside request)).take 8)

def revisionBytes : Option Text → List UInt8
  | some revision => utf8 "known".toList ++ 0 :: utf8 revision
  | none => utf8 "unknown".toList

def reviewHashInput (request : ModelRequest) (revision : Option Text) (policy : Json) :
    List UInt8 :=
  utf8 "tinysweeper-cassette-review-v1".toList ++ 0 :: (utf8 (key outside request) ++
    (framed ["policy".toList, outside.render (canonicalSchema policy), "revision".toList] ++
      0 :: revisionBytes revision))

def reviewKey (request : ModelRequest) (revision : Option Text) (policy : Json) : Text :=
  hexDigest (outside.sha256 (reviewHashInput outside request revision policy))

def FAILED : Text := "failed".toList

/-- How a result is remembered. -/
def fingerprint (tree : Tree Q) (query : Q) : Text :=
  match tree.answer query with
  | .ok found => hexDigest (outside.sha256 (utf8 (outside.render (canonicalSchema found))))
  | .error _ => FAILED

structure Spend (υ : Type) where
  usage : υ
  models : List Text

def Spend.record (spend : Spend υ) (model : Text) (usage : υ) : Spend υ :=
  ⟨outside.add spend.usage usage,
    if model ∈ spend.models then spend.models else spend.models ++ [model]⟩

/-- What a run of a cassette has counted. -/
structure Playback (υ Q : Type) where
  served : ℕ
  looseHits : ℕ
  misses : ℕ
  spend : Spend υ
  unreportedErrors : ℕ
  recorded : List (Take υ Q)

def Playback.initial : Playback υ Q := ⟨0, 0, 0, ⟨outside.zero, []⟩, 0, []⟩

/-- What is asked of a model. -/
inductive Asked (Q : Type) where
  | complete (request : ModelRequest)
  | review (request : ModelRequest) (tree : Tree Q) (policy : Json)

def Asked.request : Asked Q → ModelRequest
  | .complete request => request
  | .review request _ _ => request

def Asked.key : Asked Q → Text
  | .complete request => Harness.key outside request
  | .review request tree policy => reviewKey outside request tree.revision policy

/-- What a review's take remembers of the tree. -/
def Asked.context (queries : List Q) : Asked Q → Option (ReviewContext Q)
  | .complete _ => none
  | .review _ tree policy => some ⟨policy, tree.revision,
      queries.map fun query => ⟨query, fingerprint outside tree query⟩⟩

def makeTake (recordPrompts : Bool) (asked : Asked Q) (queries : List Q)
    (response : ModelResponse υ) : Take υ Q where
  key := asked.key outside
  modelRequested := asked.request.model
  modelAnswered := response.model
  schemaName := asked.request.schemaName
  usage := response.usage
  value := response.value
  reviewContext := asked.context outside queries
  prompt :=
    if recordPrompts then
      some (asked.request.messages.map fun message =>
        ⟨roleName message.role, message.content, message.images⟩)
    else none

def recordError (s : Playback υ Q) (error : ModelError υ) : Playback υ Q :=
  let charged (usage : υ) : Spend υ := { s.spend with usage := outside.add s.spend.usage usage }
  match error with
  | .executionRefused usage accountingComplete =>
    { s with
      spend := (usage.map charged).getD s.spend
      unreportedErrors := s.unreportedErrors + if accountingComplete then 0 else 1 }
  | .other (some usage) => { s with spend := charged usage }
  | .other none => { s with unreportedErrors := s.unreportedErrors + 1 }

/-- Record what the live model answered, and which operations it used. -/
def recordCall (recordPrompts : Bool) (s : Playback υ Q) (asked : Asked Q) (queries : List Q)
    (answer : Except (ModelError υ) (ModelResponse υ)) : Playback υ Q :=
  match answer with
  | .error error => recordError outside s error
  | .ok response =>
    { s with
      served := s.served + 1
      spend := s.spend.record outside response.model response.usage
      recorded := s.recorded ++ [makeTake outside recordPrompts asked queries response] }

/-- A directory, by its files. -/
abbrev Dir (Γ : Type) := List (Text × Γ)

def Dir.write (dir : Dir Γ) (name : Text) (contents : Γ) : Dir Γ :=
  dir.filter (fun file => decide (file.1 ≠ name)) ++ [(name, contents)]

/-- The number in at least four digits. -/
def padded (n : ℕ) : Text := List.replicate (4 - (decimal n).length) '0' ++ decimal n

def fileName (index : ℕ) (take : Take υ Q) : Text :=
  padded (index + 1) ++ '-' :: (take.key ++ ".json".toList)

/-- Write what was recorded, oldest call first. -/
def flush (recorded : List (Take υ Q)) (dir : Dir Γ) : Dir Γ :=
  recorded.zipIdx.foldl
    (fun dir entry => dir.write (fileName entry.2 entry.1) (outside.encode entry.1)) dir

/-- Every take of a directory, in the order of the file names. -/
def load (dir : Dir Γ) : Except Text (List (Take υ Q)) :=
  ((dir.filter fun file => ".json".toList.isSuffixOf file.1).insertionSort fun a b =>
    a.1 ≤ b.1).mapM fun file => outside.decode file.2

inductive Mode where
  | strict
  | loose
  deriving DecidableEq

/-- A cassette that replays. -/
structure Cassette (υ Q : Type) where
  mode : Mode
  ordered : List (Take υ Q)

def replay (dir : Dir Γ) (mode : Mode) : Except Text (Cassette υ Q) :=
  (load outside dir).map fun ordered => ⟨mode, ordered⟩

/-- The take filed under a key; of several, the last. -/
def Cassette.take? (c : Cassette υ Q) (key : Text) : Option (Take υ Q) :=
  c.ordered.reverse.find? fun take => take.key = key

inductive ReplayError where
  | miss (schemaName model key : Text)
  | methodMismatch
  | sourceChanged
  | exhausted (calls held : ℕ)
  deriving DecidableEq

def replayed (take : Take υ Q) : ModelResponse υ := ⟨take.value, take.modelAnswered, take.usage⟩

/-- Serve a take. -/
def Playback.serve (s : Playback υ Q) (take : Take υ Q) :
    Playback υ Q × Except ReplayError (ModelResponse υ) :=
  ({ s with spend := s.spend.record outside take.modelAnswered take.usage }, .ok (replayed take))

def Playback.refuse (s : Playback υ Q) (error : ReplayError) :
    Playback υ Q × Except ReplayError (ModelResponse υ) :=
  ({ s with misses := s.misses + 1 }, .error error)

def Cassette.complete (c : Cassette υ Q) (s : Playback υ Q) (request : ModelRequest) :
    Playback υ Q × Except ReplayError (ModelResponse υ) :=
  let cursor := s.served
  let s := { s with served := s.served + 1 }
  match c.take? (key outside request), c.mode with
  | some take, _ => s.serve outside take
  | none, .strict =>
    s.refuse (.miss request.schemaName request.model (key outside request))
  | none, .loose =>
    match c.ordered[cursor]? with
    | some take =>
      if take.reviewContext.isNone then
        { s with looseHits := s.looseHits + 1 }.serve outside take
      else s.refuse .methodMismatch
    | none => (s, .error (.exhausted (cursor + 1) c.ordered.length))

/-- The take a review is served from, and whether by call order only. -/
def Cassette.reviewTake (c : Cassette υ Q) (cursor : ℕ) (key : Text) : Option (Take υ Q × Bool) :=
  match c.take? key, c.mode with
  | some take, _ => some (take, false)
  | none, .strict => none
  | none, .loose =>
    ((c.ordered)[cursor]?.filter fun take => take.reviewContext.isSome).map fun take => (take, true)

/-- Whether the tree answers a recorded operation as it did. -/
def reissue (tree : Tree Q) (expected : RecordedQuery Q) : Bool :=
  if expected.result = FAILED then (tree.answer expected.query).toOption.isNone
  else
    match tree.answer expected.query with
    | .ok found =>
      hexDigest (outside.sha256 (utf8 (outside.render (canonicalSchema found)))) = expected.result
    | .error _ => false

def Cassette.review (c : Cassette υ Q) (s : Playback υ Q) (request : ModelRequest) (tree : Tree Q)
    (policy : Json) : Playback υ Q × Except ReplayError (ModelResponse υ) :=
  let key := reviewKey outside request tree.revision policy
  let cursor := s.served
  let s := { s with served := s.served + 1 }
  match c.reviewTake cursor key with
  | none => s.refuse (.miss request.schemaName request.model key)
  | some (take, loose) =>
    match take.reviewContext with
    | none => s.refuse .methodMismatch
    | some context =>
      if context.queries.all (reissue outside tree) then
        { s with looseHits := s.looseHits + if loose then 1 else 0 }.serve outside take
      else s.refuse .sourceChanged

def Cassette.ask (c : Cassette υ Q) (s : Playback υ Q) :
    Asked Q → Playback υ Q × Except ReplayError (ModelResponse υ)
  | .complete request => c.complete outside s request
  | .review request tree policy => c.review outside s request tree policy

end Cassette

end TinySweeper.Harness
