import TinySweeper.PrTriage.Comment
import TinySweeper.PrTriage.Landed

/-!
# Duplicate pull requests

Two pull requests are duplicates when they change the same files in the same way;
the newer one is the duplicate.
-/

namespace TinySweeper.PrTriage

open Text

/-- A pull request as the comparison sees it. -/
structure Shape where
  number : ℕ
  baseRef : Text
  paths : List Text
  /-- How many lines are changed under each fingerprint. -/
  edits : List (Text × ℕ)
  everyFileReadable : Bool
  deriving DecidableEq, Repr

def FileStatus.name : FileStatus → Text
  | .added => "Added".toList
  | .modified => "Modified".toList
  | .removed => "Removed".toList
  | .renamed => "Renamed".toList

/-- Which file, what kind of change, where in it, what it replaces and with what. -/
def fingerprint (file : ChangedFile) (hunk : Hunk) : Text :=
  file.path ++ '\x1f' :: (file.status.name ++ '\x1f' :: (file.previousPath.getD [] ++
    '\x1f' :: (decimal hunk.start ++ '\x1e' :: (['\x1f'].intercalate hunk.before ++
      '\x1e' :: ['\x1f'].intercalate hunk.after))))

/-- Add lines under a fingerprint. -/
def addEdit (edits : List (Text × ℕ)) (name : Text) (lines : ℕ) : List (Text × ℕ) :=
  if edits.any fun edit => edit.1 = name then
    edits.map fun edit => if edit.1 = name then (edit.1, edit.2 + lines) else edit
  else edits ++ [(name, lines)]

def Shape.of (number : ℕ) (baseRef : Text) (files : List ChangedFile) : Shape where
  number := number
  baseRef := baseRef
  paths := (files.map fun file => file.path).dedup
  edits := files.foldl (fun edits file =>
    ((file.patch.map hunks).getD []).foldl
      (fun edits hunk => addEdit edits (fingerprint file hunk) (max hunk.changed 1)) edits) []
  everyFileReadable := files.all fun file => file.patch.isSome

def Shape.isComparable (shape : Shape) : Bool :=
  !shape.paths.isEmpty && !shape.edits.isEmpty && shape.everyFileReadable

structure Overlap (φ : Type) where
  paths : φ
  edits : φ

variable {φ : Type} (floats : Floats φ)

def jaccard (left right : List Text) : φ :=
  let union := (left ++ right).dedup.length
  if union = 0 then floats.zero
  else floats.ratio (left.filter fun path => path ∈ right).length union

def editsOf (edits : List (Text × ℕ)) (name : Text) : ℕ :=
  ((edits.find? fun edit => edit.1 = name).map Prod.snd).getD 0

/-- Summed minimums over summed maximums. -/
def multisetJaccard (left right : List (Text × ℕ)) : φ :=
  let names := ((left ++ right).map Prod.fst).dedup
  let union := (names.map fun name => max (editsOf left name) (editsOf right name)).sum
  if union = 0 then floats.zero
  else floats.ratio (names.map fun name => min (editsOf left name) (editsOf right name)).sum union

def overlap (left right : Shape) : Overlap φ :=
  ⟨jaccard floats left.paths right.paths, multisetJaccard floats left.edits right.edits⟩

/-- The better of what was found and one more. -/
def betterOriginal (subject : Shape) (pathMin lineMin : φ) (best : Option (ℕ × Overlap φ))
    (other : Shape) : Option (ℕ × Overlap φ) :=
  if other.number ≥ subject.number || !other.isComparable then best
  else if other.baseRef ≠ subject.baseRef then best
  else
    let score := overlap floats subject other
    if floats.less score.paths pathMin || floats.less score.edits lineMin then best
    else
      match best with
      | none => some (other.number, score)
      | some (number, current) =>
        if floats.less current.edits score.edits ||
            (floats.equal score.edits current.edits && other.number < number) then
          some (other.number, score)
        else best

/-- The older pull request that this one duplicates. -/
def duplicateOf (subject : Shape) (earlier : List Shape) (pathMin lineMin : φ) :
    Option (ℕ × Overlap φ) :=
  if !subject.isComparable then none
  else earlier.foldl (betterOriginal floats subject pathMin lineMin) none

/-- The original is an older pull request that was compared. -/
theorem duplicateOf_eq_some {subject : Shape} {earlier : List Shape} {pathMin lineMin : φ} {of : ℕ}
    {score : Overlap φ} (h : duplicateOf floats subject earlier pathMin lineMin = some (of, score)) :
    ∃ other ∈ earlier, other.number = of ∧ of < subject.number := by
  unfold duplicateOf at h
  split_ifs at h
  have hbetter : ∀ (best : Option (ℕ × Overlap φ)) (other : Shape),
      betterOriginal floats subject pathMin lineMin best other = best ∨
        ∃ score, betterOriginal floats subject pathMin lineMin best other =
          some (other.number, score) ∧ other.number < subject.number := by
    intro best other
    unfold betterOriginal
    split_ifs with holder
    · exact .inl rfl
    · exact .inl rfl
    · dsimp only
      split_ifs
      · exact .inl rfl
      · have hlower : other.number < subject.number := by
          simp only [Bool.or_eq_true, decide_eq_true_eq, not_or] at holder
          omega
        cases best with
        | none => exact .inr ⟨_, rfl, hlower⟩
        | some best =>
          dsimp only
          split_ifs
          · exact .inr ⟨_, rfl, hlower⟩
          · exact .inl rfl
  -- of the shapes seen so far, one is the best
  have hfold : ∀ (rest : List Shape) (best : Option (ℕ × Overlap φ)),
      rest.foldl (betterOriginal floats subject pathMin lineMin) best = some (of, score) →
        best = some (of, score) ∨ ∃ other ∈ rest, other.number = of ∧ of < subject.number := by
    intro rest
    induction rest with
    | nil => exact fun best hbest => .inl hbest
    | cons other rest ih =>
      intro best hbest
      rcases ih _ hbest with hstep | ⟨found, hfound, hnumber⟩
      · rcases hbetter best other with hsame | ⟨found, hfound, hlower⟩
        · exact .inl (hsame ▸ hstep)
        · obtain ⟨rfl, rfl⟩ := Prod.mk.inj (Option.some.inj (hfound.symm.trans hstep))
          exact .inr ⟨other, List.mem_cons_self, rfl, hlower⟩
      · exact .inr ⟨found, List.mem_cons_of_mem other hfound, hnumber⟩
  exact (hfold earlier none h).resolve_left (by simp)

end TinySweeper.PrTriage
