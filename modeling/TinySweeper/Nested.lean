import Mathlib.Data.List.Basic
import Mathlib.Tactic

/-!
# Nested tables

Tables of values and of further tables, read along a path of keys. Merging lays
one table over another: tables merge, everything else replaces.
-/

namespace TinySweeper.Nested

/-- The entries of a table; an entry is a value or a table. -/
inductive Table (κ σ : Type) where
  | nil
  | leaf (key : κ) (value : σ) (rest : Table κ σ)
  | table (key : κ) (inner rest : Table κ σ)
  deriving DecidableEq

abbrev Value (κ σ : Type) := σ ⊕ Table κ σ

namespace Table

variable {κ σ : Type} [DecidableEq κ] {t upper inner rest : Table κ σ} {key k : κ}

def get : Table κ σ → κ → Option (Value κ σ)
  | nil, _ => none
  | leaf key value rest, k => if key = k then some (.inl value) else rest.get k
  | table key inner rest, k => if key = k then some (.inr inner) else rest.get k

def entry (key : κ) : Value κ σ → Table κ σ → Table κ σ
  | .inl value, rest => leaf key value rest
  | .inr inner, rest => table key inner rest

/-- Replace the entry of a key, or add one. -/
def insert (key : κ) (value : Value κ σ) : Table κ σ → Table κ σ
  | nil => entry key value nil
  | leaf k v rest => if k = key then entry key value rest else leaf k v (rest.insert key value)
  | table k inner rest =>
    if k = key then entry key value rest else table k inner (rest.insert key value)

def isEmpty : Table κ σ → Bool
  | nil => true
  | _ => false

def append : Table κ σ → Table κ σ → Table κ σ
  | nil, other => other
  | leaf key value rest, other => leaf key value (rest.append other)
  | table key inner rest, other => table key inner (rest.append other)

/-- No table has a key twice. -/
def Unique : Table κ σ → Prop
  | nil => True
  | leaf key _ rest => rest.get key = none ∧ rest.Unique
  | table key inner rest => rest.get key = none ∧ inner.Unique ∧ rest.Unique

/-- No table within is empty. -/
def Pruned : Table κ σ → Prop
  | nil => True
  | leaf _ _ rest => rest.Pruned
  | table _ inner rest => inner ≠ nil ∧ inner.Pruned ∧ rest.Pruned

/-- The value at the end of a path. -/
def leafAt : Table κ σ → List κ → Option σ
  | _, [] => none
  | t, k :: path =>
    match t.get k with
    | some (.inl value) => if path = [] then some value else none
    | some (.inr inner) => inner.leafAt path
    | none => none

def merge : Table κ σ → Table κ σ → Table κ σ
  | base, nil => base
  | base, leaf key value rest => (base.insert key (.inl value)).merge rest
  | base, table key inner rest =>
    match base.get key with
    | some (.inr below) => (base.insert key (.inr (below.merge inner))).merge rest
    | _ => (base.insert key (.inr inner)).merge rest

@[simp] theorem get_nil (k : κ) : (nil : Table κ σ).get k = none := rfl

@[simp] theorem get_entry (key k : κ) (value : Value κ σ) (rest : Table κ σ) :
    (entry key value rest).get k = if key = k then some value else rest.get k := by
  cases value <;> rfl

theorem get_insert (t : Table κ σ) (key k : κ) (value : Value κ σ) :
    (t.insert key value).get k = if key = k then some value else t.get k := by
  induction t with
  | nil => rw [insert, get_entry]
  | leaf k' v rest ih =>
    unfold insert
    by_cases hk' : k' = key
    · rw [if_pos hk', get_entry, get, hk']
      split <;> simp_all
    · rw [if_neg hk', get, get, ih]
      by_cases hk : key = k
      · subst hk
        simp [hk']
      · simp [hk]
  | table k' inner rest _ ih =>
    unfold insert
    by_cases hk' : k' = key
    · rw [if_pos hk', get_entry, get, hk']
      split <;> simp_all
    · rw [if_neg hk', get, get, ih]
      by_cases hk : key = k
      · subst hk
        simp [hk']
      · simp [hk]

/-- Writing what is there changes nothing. -/
theorem insert_eq_self {value : Value κ σ} (h : t.get key = some value) :
    t.insert key value = t := by
  induction t with
  | nil => exact absurd h (by simp)
  | leaf k v rest ih =>
    unfold get at h
    unfold insert
    by_cases hk : k = key
    · rw [if_pos hk] at h ⊢
      obtain rfl := Option.some.inj h
      rw [hk]
      rfl
    · rw [if_neg hk] at h ⊢
      rw [ih h]
  | table k inner rest _ ih =>
    unfold get at h
    unfold insert
    by_cases hk : k = key
    · rw [if_pos hk] at h ⊢
      obtain rfl := Option.some.inj h
      rw [hk]
      rfl
    · rw [if_neg hk] at h ⊢
      rw [ih h]

/-- A new key goes to the end. -/
theorem insert_eq_append (value : Value κ σ) (h : t.get key = none) :
    t.insert key value = t.append (entry key value nil) := by
  induction t with
  | nil => rfl
  | leaf k v rest ih =>
    unfold get at h
    split at h
    case isTrue => exact absurd h (by simp)
    case isFalse hk => rw [insert, if_neg hk, ih h, append]
  | table k inner rest _ ih =>
    unfold get at h
    split at h
    case isTrue => exact absurd h (by simp)
    case isFalse hk => rw [insert, if_neg hk, ih h, append]

omit [DecidableEq κ] in
@[simp] theorem append_nil (t : Table κ σ) : t.append nil = t := by
  induction t with
  | nil => rfl
  | leaf _ _ _ ih => rw [append, ih]
  | table _ _ _ _ ih => rw [append, ih]

omit [DecidableEq κ] in
theorem append_assoc (t u v : Table κ σ) : (t.append u).append v = t.append (u.append v) := by
  induction t with
  | nil => rfl
  | leaf _ _ _ ih => rw [append, append, append, ih]
  | table _ _ _ _ ih => rw [append, append, append, ih]

@[simp] theorem leafAt_nil (t : Table κ σ) : t.leafAt [] = none := by
  cases t <;> rfl

theorem leafAt_cons (t : Table κ σ) (k : κ) (path : List κ) : t.leafAt (k :: path) =
    match t.get k with
    | some (.inl value) => if path = [] then some value else none
    | some (.inr inner) => inner.leafAt path
    | none => none := by
  cases t <;> rfl

@[simp] theorem leafAt_empty (path : List κ) : (nil : Table κ σ).leafAt path = none := by
  cases path <;> rfl

/-- Something is below every table that is not empty. -/
theorem exists_leafAt (hpruned : t.Pruned) (hne : t ≠ nil) :
    ∃ path value, t.leafAt path = some value := by
  induction t with
  | nil => exact absurd rfl hne
  | leaf key value rest => exact ⟨[key], value, by simp [leafAt_cons, get]⟩
  | table key inner rest ih =>
    obtain ⟨hinner, hbelow, -⟩ := hpruned
    obtain ⟨path, value, hleaf⟩ := ih hbelow hinner
    exact ⟨key :: path, value, by simp [leafAt_cons, get, hleaf]⟩

/-- Each key of the upper table is merged once. -/
theorem get_merge (hunique : upper.Unique) (base : Table κ σ) (k : κ) : (base.merge upper).get k =
      match upper.get k with
      | none => base.get k
      | some (.inl value) => some (.inl value)
      | some (.inr inner) =>
        match base.get k with
        | some (.inr below) => some (.inr (below.merge inner))
        | _ => some (.inr inner) := by
  induction upper generalizing base with
  | nil => rfl
  | leaf key value rest ih =>
    obtain ⟨hfresh, hrest⟩ := hunique
    rw [merge, ih hrest, get_insert, get]
    by_cases hk : key = k
    · subst hk
      rw [hfresh, if_pos rfl, if_pos rfl]
    · rw [if_neg hk, if_neg hk]
  | table key inner rest _ ih =>
    obtain ⟨hfresh, -, hrest⟩ := hunique
    rw [merge, get]
    by_cases hk : key = k
    · subst hk
      rw [if_pos rfl]
      split <;> rw [ih hrest, hfresh, get_insert, if_pos rfl]
    · rw [if_neg hk]
      split <;> rw [ih hrest, get_insert, if_neg hk]

theorem unique_of_get (hunique : t.Unique) (h : t.get k = some (.inr inner)) : inner.Unique := by
  induction t with
  | nil => exact absurd h (by simp)
  | leaf key value rest ih =>
    unfold get at h
    split at h
    case isTrue => exact absurd h (by simp)
    case isFalse => exact ih hunique.2 h
  | table key below rest _ ih =>
    unfold get at h
    split at h
    case isTrue =>
      obtain rfl : below = inner := by simpa using h
      exact hunique.2.1
    case isFalse => exact ih hunique.2.2 h

/-- What the table has on the way or at the end leaves no room for another's value there. -/
def Displaces : Table κ σ → List κ → Prop
  | _, [] => True
  | t, k :: path =>
    match t.get k with
    | some (.inl _) => path ≠ []
    | some (.inr inner) => inner.Displaces path
    | none => False

theorem displaces_cons (t : Table κ σ) (k : κ) (path : List κ) : t.Displaces (k :: path) =
    match t.get k with
    | some (.inl _) => path ≠ []
    | some (.inr inner) => inner.Displaces path
    | none => False := by
  cases t <;> rfl

open Classical in
/-- A merge reads the upper value, or the lower one where the upper table does not displace it. -/
theorem leafAt_merge_displaces (hunique : upper.Unique) (base : Table κ σ) (path : List κ) :
    (base.merge upper).leafAt path =
      (upper.leafAt path).or (if upper.Displaces path then none else base.leafAt path) := by
  induction path generalizing base upper with
  | nil => simp
  | cons k path ih =>
    rw [leafAt_cons, get_merge hunique, leafAt_cons upper, displaces_cons]
    cases hover : upper.get k with
    | none =>
      rw [if_neg not_false, leafAt_cons]
      rfl
    | some value =>
      cases value with
      | inl value => by_cases hpath : path = [] <;> simp [hpath]
      | inr inner =>
        have hinner := unique_of_get hunique hover
        rw [leafAt_cons base]
        cases hbase : base.get k with
        | none => simp
        | some value =>
          cases value with
          | inr below => exact ih hinner below
          | inl value =>
            by_cases hpath : path = []
            · subst hpath
              have htop : inner.Displaces [] := by cases inner <;> trivial
              simp [htop]
            · simp [hpath]

/-- A value of the table stands strictly above or below the end of the path. -/
def Blocks (t : Table κ σ) (path : List κ) : Prop :=
  ∃ other value, t.leafAt other = some value ∧ other ≠ path ∧ (other <+: path ∨ path <+: other)

omit [DecidableEq κ] in
theorem head_eq_of_leading {k' : κ} {path other : List κ}
    (h : k' :: other <+: k :: path ∨ k :: path <+: k' :: other) : k' = k := by
  rcases h with h | h
  · exact (List.cons_prefix_cons.mp h).1
  · exact (List.cons_prefix_cons.mp h).1.symm

theorem blocks_cons (h : t.get k = some (.inr inner)) (path : List κ) :
    t.Blocks (k :: path) ↔ inner.Blocks path := by
  constructor
  · rintro ⟨other, value, hleaf, hne, hleading⟩
    cases other with
    | nil => exact absurd hleaf (by simp)
    | cons k' rest =>
      obtain rfl := head_eq_of_leading hleading
      rw [leafAt_cons, h] at hleaf
      refine ⟨rest, value, hleaf, fun heq => hne (by rw [heq]), ?_⟩
      rcases hleading with hleading | hleading
      · exact .inl (List.cons_prefix_cons.mp hleading).2
      · exact .inr (List.cons_prefix_cons.mp hleading).2
  · rintro ⟨other, value, hleaf, hne, hleading⟩
    refine ⟨k :: other, value, by rw [leafAt_cons, h]; exact hleaf,
      fun heq => hne (List.cons.inj heq).2, ?_⟩
    rcases hleading with hleading | hleading
    · exact .inl (List.cons_prefix_cons.mpr ⟨rfl, hleading⟩)
    · exact .inr (List.cons_prefix_cons.mpr ⟨rfl, hleading⟩)

theorem not_blocks_of_get_none (h : t.get k = none) (path : List κ) : ¬ t.Blocks (k :: path) := by
  rintro ⟨other, value, hleaf, -, hleading⟩
  cases other with
  | nil => exact absurd hleaf (by simp)
  | cons k' rest =>
    obtain rfl := head_eq_of_leading hleading
    rw [leafAt_cons, h] at hleaf
    exact absurd hleaf (by simp)

/-- Nothing stands above or below a value. -/
theorem not_blocks_of_leafAt {path : List κ} {value : σ} (h : t.leafAt path = some value) :
    ¬ t.Blocks path := by
  induction path generalizing t with
  | nil => exact absurd h (by simp)
  | cons k path ih =>
    rw [leafAt_cons] at h
    cases hget : t.get k with
    | none => simp [hget] at h
    | some found =>
      cases found with
      | inr inner =>
        rw [hget] at h
        rw [blocks_cons hget]
        exact ih h
      | inl found =>
        rintro ⟨other, value', hother, hne, hnear⟩
        obtain rfl : path = [] := by
          by_contra hpath
          simp [hget, hpath] at h
        cases other with
        | nil => exact absurd hother (by simp)
        | cons k' rest =>
          obtain rfl : k' = k := by
            rcases hnear with hnear | hnear
            · exact (List.cons_prefix_cons.mp hnear).1
            · exact (List.cons_prefix_cons.mp hnear).1.symm
          rw [leafAt_cons, hget] at hother
          by_cases hrest : rest = []
          · exact hne (by rw [hrest])
          · simp [hrest] at hother

/-- What is read from the rest of the entries is read from all of them. -/
theorem leafAt_of_rest (hfresh : rest.get key = none) (hget : ∀ k, key ≠ k → t.get k = rest.get k)
    {path : List κ} {value : σ} (h : rest.leafAt path = some value) :
    t.leafAt path = some value := by
  cases path with
  | nil => exact absurd h (by simp)
  | cons k path =>
    by_cases hk : key = k
    · rw [leafAt_cons, ← hk, hfresh] at h
      exact absurd h (by simp)
    · rw [leafAt_cons] at h ⊢
      rw [hget k hk]
      exact h

theorem leafAt_leaf {value : σ} (hfresh : rest.get key = none) {path : List κ} {found : σ} :
    (leaf key value rest).leafAt path = some found ↔
      path = [key] ∧ value = found ∨ rest.leafAt path = some found := by
  constructor
  · intro h
    cases path with
    | nil => exact absurd h (by simp)
    | cons k path =>
      rw [leafAt_cons, get] at h
      by_cases hk : key = k
      · subst hk
        by_cases hpath : path = []
        · simp_all
        · simp [hpath] at h
      · rw [if_neg hk] at h
        rw [leafAt_cons]
        exact .inr h
  · rintro (⟨rfl, rfl⟩ | h)
    · simp [leafAt_cons, get]
    · exact leafAt_of_rest hfresh (fun k hk => by rw [get, if_neg hk]) h

theorem leafAt_table (hfresh : rest.get key = none) {path : List κ} {found : σ} :
    (table key inner rest).leafAt path = some found ↔
      (∃ below, path = key :: below ∧ inner.leafAt below = some found) ∨
        rest.leafAt path = some found := by
  constructor
  · intro h
    cases path with
    | nil => exact absurd h (by simp)
    | cons k path =>
      rw [leafAt_cons, get] at h
      by_cases hk : key = k
      · subst hk
        rw [if_pos rfl] at h
        exact .inl ⟨path, rfl, h⟩
      · rw [if_neg hk] at h
        rw [leafAt_cons]
        exact .inr h
  · rintro (⟨below, rfl, h⟩ | h)
    · rwa [leafAt_cons, get, if_pos rfl]
    · exact leafAt_of_rest hfresh (fun k hk => by rw [get, if_neg hk]) h

theorem pruned_of_get (hpruned : t.Pruned) (h : t.get k = some (.inr inner)) :
    inner ≠ nil ∧ inner.Pruned := by
  induction t with
  | nil => exact absurd h (by simp)
  | leaf key value rest ih =>
    unfold get at h
    split at h
    case isTrue => exact absurd h (by simp)
    case isFalse => exact ih hpruned h
  | table key below rest _ ih =>
    unfold get at h
    split at h
    case isTrue =>
      obtain rfl : below = inner := by simpa using h
      exact ⟨hpruned.1, hpruned.2.1⟩
    case isFalse => exact ih hpruned.2.2 h

open Classical in
/-- A merge reads the upper value, or the lower one where the upper table puts nothing above
or below it. -/
theorem leafAt_merge (hunique : upper.Unique) (hpruned : upper.Pruned) (base : Table κ σ)
    (path : List κ) :
    (base.merge upper).leafAt path =
      (upper.leafAt path).or (if upper.Blocks path then none else base.leafAt path) := by
  induction path generalizing base upper with
  | nil => simp
  | cons k path ih =>
    rw [leafAt_cons, get_merge hunique, leafAt_cons upper]
    cases hover : upper.get k with
    | none =>
      rw [if_neg (not_blocks_of_get_none hover path), leafAt_cons]
      rfl
    | some value =>
      cases value with
      | inl value =>
        by_cases hpath : path = []
        · simp [hpath]
        · have hblocks : upper.Blocks (k :: path) := by
            refine ⟨[k], value, by simp [leafAt_cons, hover], by simp [hpath], .inl ?_⟩
            exact List.cons_prefix_cons.mpr ⟨rfl, List.nil_prefix⟩
          simp [hpath, hblocks]
      | inr inner =>
        obtain ⟨hne, hinner⟩ := pruned_of_get hpruned hover
        have hbelow := unique_of_get hunique hover
        simp only [blocks_cons hover, leafAt_cons base]
        cases hbase : base.get k with
        | none => simp
        | some value =>
          cases value with
          | inr below => exact ih hbelow hinner below
          | inl value =>
            by_cases hpath : path = []
            · subst hpath
              obtain ⟨other, leaf, hleaf⟩ := exists_leafAt hinner hne
              have hblocks : inner.Blocks [] := by
                refine ⟨other, leaf, hleaf, ?_, .inr List.nil_prefix⟩
                rintro rfl
                exact absurd hleaf (by simp)
              simp [hblocks]
            · simp [hpath]

/-- Laying a table over one that has all its values changes nothing. -/
theorem merge_eq_self (hunique : upper.Unique) (hpruned : upper.Pruned) {base : Table κ σ}
    (h : ∀ path value, upper.leafAt path = some value → base.leafAt path = some value) :
    base.merge upper = base := by
  induction upper generalizing base with
  | nil => rfl
  | leaf key value rest ih =>
    obtain ⟨hfresh, hrest⟩ := hunique
    have hkey : base.get key = some (.inl value) := by
      have hleaf := h [key] value (by simp [leafAt_cons, get])
      rw [leafAt_cons] at hleaf
      cases hfound : base.get key with
      | none => simp [hfound] at hleaf
      | some found =>
        cases found with
        | inl found => simpa [hfound] using hleaf
        | inr below => simp [hfound] at hleaf
    rw [merge, insert_eq_self hkey]
    refine ih hrest hpruned fun path value' hleaf => h path value' ?_
    exact leafAt_of_rest hfresh (fun k hk => by rw [get, if_neg hk]) hleaf
  | table key inner rest ihInner ih =>
    obtain ⟨hfresh, hinner, hrest⟩ := hunique
    obtain ⟨hne, hbelow, hpruned⟩ := hpruned
    have hthrough : ∀ path, (table key inner rest).leafAt (key :: path) = inner.leafAt path :=
      fun path => by simp [leafAt_cons, get]
    obtain ⟨path, value, hleaf⟩ := exists_leafAt hbelow hne
    -- A value below the key makes it a table of the base.
    obtain ⟨below, hkey⟩ : ∃ below, base.get key = some (.inr below) := by
      have hbase := h (key :: path) value ((hthrough path).trans hleaf)
      rw [leafAt_cons] at hbase
      cases hfound : base.get key with
      | none => simp [hfound] at hbase
      | some found =>
        cases found with
        | inl found =>
          rw [hfound] at hbase
          have hpath : path ≠ [] := by
            rintro rfl
            exact absurd hleaf (by simp)
          simp [hpath] at hbase
        | inr below => exact ⟨below, rfl⟩
    have hmerge : below.merge inner = below := by
      refine ihInner hinner hbelow fun path value hleaf => ?_
      have hbase := h (key :: path) value ((hthrough path).trans hleaf)
      rwa [leafAt_cons, hkey] at hbase
    have hstep : base.merge (table key inner rest) = base.merge rest := by
      rw [merge, hkey]
      dsimp only
      rw [hmerge, insert_eq_self hkey]
    rw [hstep]
    refine ih hrest hpruned fun path value hleaf => h path value ?_
    exact leafAt_of_rest hfresh (fun k hk => by rw [get, if_neg hk]) hleaf

end Table

end TinySweeper.Nested
