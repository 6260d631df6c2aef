import TinySweeper.Delimited
import TinySweeper.Evidence.Diff
import TinySweeper.UnionFind

/-!
# Grouping changed files

Files whose code or names are related travel together in one conversation, as
far as the bounds allow. `paths` arrive in triage order.
-/

namespace TinySweeper.Lanes

open Text Evidence UnionFind

inductive EdgeKind where
  | imports
  | defines
  | calls
  | references
  | extends
  | tests
  deriving DecidableEq, Repr

structure GraphNode where
  id : Text
  path : Text
  deriving DecidableEq

structure GraphEdge where
  source : Text
  target : Text
  kind : EdgeKind
  deriving DecidableEq

/-- What a walk from the changed files reached. -/
structure Neighbourhood where
  nodes : List GraphNode
  edges : List GraphEdge

/-- Node ids are unique within a repository. -/
def Neighbourhood.UniqueIds (graph : Neighbourhood) : Prop :=
  ∀ a ∈ graph.nodes, ∀ b ∈ graph.nodes, a.id = b.id → a.path = b.path

/-- Every kind by which code depends on code; a file defines its own symbols only. -/
def EdgeKind.relates : EdgeKind → Bool
  | .defines => false
  | _ => true

/-- A path's directory, empty for a bare filename, and its filename. -/
def splitDirFile (path : Text) : Text × Text := (rsplitOnce '/' path).getD ([], path)

def rustTestStem (stem : Text) : Option Text :=
  (stripSuffix "_tests".toList stem).or (stripSuffix "_test".toList stem)

def pythonTestStem (stem : Text) : Option Text := stripPrefix "test_".toList stem

def jsTestStem (stem : Text) : Option Text :=
  (stripSuffix ".test".toList stem).or (stripSuffix ".spec".toList stem)

def javaTestStem (stem : Text) : Option Text := stripSuffix "Test".toList stem

/-- Whether two files of one extension are a file and its tests. -/
def testPair (extension : String) (testStem : Text → Option Text) (fileA fileB : Text) : Bool :=
  match stripSuffix extension.toList fileA, stripSuffix extension.toList fileB with
  | some stemA, some stemB => testStem stemA = some stemB || testStem stemB = some stemA
  | _, _ => false

def testSiblings (a b : Text) : Bool :=
  let (dirA, fileA) := splitDirFile a
  let (dirB, fileB) := splitDirFile b
  dirA == dirB &&
    (testPair ".rs" rustTestStem fileA fileB || testPair ".py" pythonTestStem fileA fileB ||
      [".ts", ".tsx", ".js", ".jsx"].any (fun extension =>
        testPair extension jsTestStem fileA fileB) ||
      testPair ".java" javaTestStem fileA fileB)

/-- Build and environment markers that only look like locale codes. -/
def ordinaryQualifiers : List Text :=
  ["min", "dev", "prod", "src", "lib", "bin", "raw", "tmp", "bak", "old", "new", "esm", "cjs",
    "umd", "amd", "doc", "api", "mod", "d"].map String.toList

def looksLikeLocale (segment : Text) : Bool :=
  let core := segment.takeWhile fun c => c != '-' && c != '_'
  decide (2 ≤ core.length) && decide (core.length ≤ 3) && core.all Char.isAlpha &&
    segment.all (fun c => c.isAlphanum || c == '-' || c == '_') &&
    !ordinaryQualifiers.any fun qualifier => toAsciiLowercase qualifier == toAsciiLowercase core

/-- `base.locale.ext` in its three parts, when `locale` reads like a locale code. -/
def localeSegment (file : Text) : Option (Text × Text × Text) :=
  match (file.splitOn '.').reverse with
  | extension :: locale :: _ :: _ =>
    if looksLikeLocale locale then
      -- The base may itself contain a dot.
      some (file.take (file.length - extension.length - locale.length - 2), locale, extension)
    else none
  | _ => none

def stemOf (file : Text) : Text := ((rsplitOnce '.' file).map Prod.fst).getD file

def extensionOf (file : Text) : Option Text := (rsplitOnce '.' file).map Prod.snd

def localeSiblings (a b : Text) : Bool :=
  let (dirA, fileA) := splitDirFile a
  let (dirB, fileB) := splitDirFile b
  let translated :=
    match localeSegment fileA, localeSegment fileB with
    | some (baseA, localeA, extA), some (baseB, localeB, extB) =>
      baseA == baseB && extA == extB && localeA != localeB
    | _, _ => false
  let underLocaleDir := (dirA.splitOn '/').any
    (["i18n", "locales"].map String.toList).contains
  dirA == dirB && fileA != fileB &&
    (translated || underLocaleDir && (extensionOf fileA).isSome &&
      extensionOf fileA == extensionOf fileB && looksLikeLocale (stemOf fileA) &&
      looksLikeLocale (stemOf fileB))

def isScriptExtension (rest : Text) : Bool :=
  (["ts", "tsx", "js", "jsx", "module.ts", "module.tsx"].map String.toList).contains rest

def isStyleExtension (rest : Text) : Bool :=
  (["css", "scss", "less", "module.css", "module.scss", "module.less"].map
    String.toList).contains rest

/-- The part of a filename before its first dot, and the part behind it. -/
def rootAndRest (file : Text) : Option (Text × Text) := splitOnce '.' file

def sameStemDifferentExtension (a b : Text) : Bool :=
  let (dirA, fileA) := splitDirFile a
  let (dirB, fileB) := splitDirFile b
  dirA == dirB && fileA != fileB &&
    match rootAndRest fileA, rootAndRest fileB with
    | some (rootA, restA), some (rootB, restB) =>
      !rootA.isEmpty && rootA == rootB &&
        (isScriptExtension restA && isStyleExtension restB ||
          isScriptExtension restB && isStyleExtension restA)
    | _, _ => false

/-- Whether two files are related by name alone. -/
def areSiblings (a b : Text) : Bool :=
  testSiblings a b || localeSiblings a b || sameStemDifferentExtension a b

/-- A map collected from entries: the last entry of a key wins. -/
def collected {α β : Type*} [BEq α] (entries : List (α × β)) (key : α) : Option β :=
  entries.reverse.lookup key

def Neighbourhood.pathOf (graph : Neighbourhood) : Text → Option Text :=
  collected (graph.nodes.map fun node => (node.id, node.path))

def indexOf (paths : List Text) : Text → Option ℕ := collected paths.zipIdx

/-- The changed files an edge connects. -/
def edgePair (graph : Neighbourhood) (paths : List Text) (edge : GraphEdge) : Option (ℕ × ℕ) :=
  if !edge.kind.relates then none
  else
    match graph.pathOf edge.source, graph.pathOf edge.target with
    | some source, some target =>
      if source = target then none
      else
        match indexOf paths source, indexOf paths target with
        | some a, some b => some (a, b)
        | _, _ => none
    | _, _ => none

def graphPairs (graph : Option Neighbourhood) (paths : List Text) : List (ℕ × ℕ) :=
  match graph with
  | none => []
  | some graph => graph.edges.filterMap (edgePair graph paths)

/-- Every pair of positions, the earlier one first, whose names are related. -/
def siblingPairs (paths : List Text) : List (ℕ × ℕ) :=
  paths.zipIdx.flatMap fun a =>
    (paths.zipIdx.filter fun b => decide (a.2 < b.2) && areSiblings a.1 b.1).map
      fun b => (a.2, b.2)

/-- Add a member under its key; the entries are in key order. -/
def pushMember (key member : ℕ) : List (ℕ × List ℕ) → List (ℕ × List ℕ)
  | [] => [(key, [member])]
  | (first, members) :: rest =>
    if key < first then (key, [member]) :: (first, members) :: rest
    else if key = first then (first, members ++ [member]) :: rest
    else (first, members) :: pushMember key member rest

/-- The positions under their roots. -/
def components (parents : List ℕ) : List (ℕ × List ℕ) :=
  ((List.range parents.length).foldl
    (fun (s : List ℕ × List (ℕ × List ℕ)) i =>
      let found := find s.1.length s.1 i
      (found.1, pushMember found.2 i s.2)) (parents, [])).2

def maxUsize : ℕ := 2 ^ 64 - 1

/-- A component's place in triage order. -/
def lowest (members : List ℕ) : ℕ := members.min?.getD maxUsize

structure FileGroup where
  label : Text
  paths : List Text
  deriving DecidableEq, Repr

structure GroupBounds where
  maxFiles : ℕ
  maxHunkChars : ℕ

section Group

variable (highEntropy : Text → Bool) (paths : List Text) (diffs : List FileDiff)
variable (graph : Option Neighbourhood) (bounds : GroupBounds)

/-- Whether these files may travel together. -/
def fits (members : List Text) : Bool :=
  if members.length > bounds.maxFiles then false
  else if members.length ≤ 1 then true
  else
    let total := ((members.filterMap fun path => diffs.find? fun diff => diff.path = path).map
      fun diff => utf8Len (render highEntropy [diff])).sum
    decide (total ≤ bounds.maxHunkChars)

/-- One component as one group, or each of its members alone. -/
def groupsOf (members : List Text) : List FileGroup :=
  if fits highEntropy diffs bounds members then
    [⟨" + ".toList.intercalate members, members⟩]
  else members.map fun path => ⟨path, [path]⟩

/-- Components in triage order. -/
def orderedComponents : List (List ℕ) :=
  ((components (unionAll (List.range paths.length)
    (graphPairs graph paths ++ siblingPairs paths))).map Prod.snd).insertionSort
      fun a b => lowest a ≤ lowest b

def group : List FileGroup :=
  if paths.isEmpty then []
  else
    (orderedComponents paths graph).flatMap fun members =>
      groupsOf highEntropy diffs bounds (members.filterMap fun i => paths[i]?)

end Group

end TinySweeper.Lanes
