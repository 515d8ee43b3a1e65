import Mathlib.Data.List.AList
import Mathlib.Data.List.Sort
import Mathlib.Data.Nat.Digits.Defs
import Mathlib.Data.String.Basic

/-!
# `MapReduce.Files` — the working directory and its `mr-*` files

All workers share one directory. Every file they make is called `mr-`, something, `-`, a number: the two kinds
that are published and the two kinds of temporary files. `fileName` builds all four, and the numbers at the end
have no dash, so a name determines what it was built from.

The reduce worker finds its input by the wildcard `mr-*-r`. `globMatch` is the matcher of `filepath.Match` for
patterns made of literals and stars; `globMatch_fileName` says what the wildcard finds: every file whose
number is `r`, of whichever kind.

Publishing is a rename, which is atomic: a file is there with all of its content or not at all. Temporary files are in
the directory as well, under names the wildcard may find.
-/

namespace DistributedLabs
namespace MapReduce

/-! ## Names -/

/-- The shape of every name a worker makes. -/
def fileName (body : String) (n : Nat) : String := "mr-" ++ body ++ "-" ++ toString n

/-- `mr-%d-%d`: the records of map task `m` for reduce task `r`. -/
def intermediateName (m r : Nat) : String := fileName (toString m) r

/-- `mr-out-%d`. -/
def outName (r : Nat) : String := fileName "out" r

/-- `mr-map-%d-*` with the star replaced by a random number. -/
def mapTempName (i sfx : Nat) : String := fileName ("map-" ++ toString i) sfx

/-- `mr-reduce-%d-*` with the star replaced by a random number. -/
def reduceTempName (r sfx : Nat) : String := fileName ("reduce-" ++ toString r) sfx

/-- `mr-*-%d`: where a reduce task looks for its input. -/
def inputPattern (r : Nat) : String := "mr-*-" ++ toString r

/-! ## The wildcard -/

/-- A star matches any text without a separator. -/
def globStar (f : List Char → Bool) : List Char → Bool
  | [] => f []
  | c :: rest => f (c :: rest) || (c ≠ '/' && globStar f rest)

/-- `filepath.Match` for a pattern of literal characters and stars. -/
def globMatch : List Char → List Char → Bool
  | [], s => s.isEmpty
  | p :: ps, s =>
      if p = '*' then globStar (globMatch ps) s
      else
        match s with
        | [] => false
        | c :: rest => p = c && globMatch ps rest

/-! ## The directory -/

/-- The working directory: names with their contents. -/
abbrev Dir := AList (fun _ : String => List Char)

/-- `os.Rename` of a file that has been written in full: the old name goes, the new one is replaced. -/
def Dir.publish (dir : Dir) (temp name : String) (content : List Char) : Dir :=
  (dir.erase temp).insert name content

/-- `filepath.Glob`: the matching names, in order. -/
def Dir.glob (dir : Dir) (pattern : String) : List String :=
  (dir.keys.filter (fun name => globMatch pattern.toList name.toList)).insertionSort (· ≤ ·)

/-! ## A name determines what it was built from -/

theorem toString_toList (n : Nat) : (toString n).toList = Nat.toDigits 10 n := Nat.toList_repr

theorem toString_digits (n : Nat) : ∀ c ∈ (toString n).toList, c.isDigit = true := by
  intro c hc
  rw [toString_toList] at hc
  exact Nat.isDigit_of_mem_toDigits (by decide) (by decide) hc

theorem dash_notMem_toString (n : Nat) : '-' ∉ (toString n).toList := by
  intro h
  have hdigit := toString_digits n '-' h
  revert hdigit
  decide

theorem toString_inj {m n : Nat} (h : toString m = toString n) : m = n := by
  have hdigits := congrArg String.toList h
  rw [toString_toList, toString_toList] at hdigits
  rw [← Nat.ofDigitChars_ten_toDigits (n := m), hdigits, Nat.ofDigitChars_ten_toDigits]

/-- The last dash of a text is determined by the text. -/
theorem split_last_dash {a b ds es : List Char} (hds : '-' ∉ ds) (hes : '-' ∉ es)
    (h : a ++ '-' :: ds = b ++ '-' :: es) : a = b ∧ ds = es := by
  rcases List.append_eq_append_iff.mp h with ⟨mid, rfl, hmid⟩ | ⟨mid, rfl, hmid⟩
  · cases mid with
    | nil => exact ⟨(List.append_nil a).symm, (List.cons.inj hmid).2⟩
    | cons c mid =>
        obtain ⟨-, rfl⟩ := List.cons.inj hmid
        exact absurd (List.mem_append_right _ (List.mem_cons_self ..)) hds
  · cases mid with
    | nil => exact ⟨List.append_nil b, (List.cons.inj hmid).2.symm⟩
    | cons c mid =>
        obtain ⟨-, rfl⟩ := List.cons.inj hmid
        exact absurd (List.mem_append_right _ (List.mem_cons_self ..)) hes

theorem fileName_toList (body : String) (n : Nat) :
    (fileName body n).toList = ('m' :: 'r' :: '-' :: body.toList) ++ '-' :: (toString n).toList := by
  simp [fileName, String.toList_append]

@[simp] theorem fileName_inj {body body' : String} {n n' : Nat} :
    fileName body n = fileName body' n' ↔ body = body' ∧ n = n' := by
  constructor
  · intro h
    have hl := congrArg String.toList h
    rw [fileName_toList, fileName_toList] at hl
    obtain ⟨hbody, hn⟩ := split_last_dash (dash_notMem_toString n) (dash_notMem_toString n') hl
    refine ⟨String.toList_inj.mp ?_, toString_inj (String.toList_inj.mp hn)⟩
    simpa using hbody
  · rintro ⟨rfl, rfl⟩
    rfl

/-- A number is no text that starts with something else than a digit. -/
theorem toString_ne {m : Nat} {s : String} {c : Char} (hc : c ∈ s.toList) (hd : c.isDigit = false) :
    toString m ≠ s := by
  rintro rfl
  rw [toString_digits m c hc] at hd
  cases hd

@[simp] theorem intermediateName_inj {m r m' r' : Nat} :
    intermediateName m r = intermediateName m' r' ↔ m = m' ∧ r = r' := by
  unfold intermediateName
  rw [fileName_inj]
  exact and_congr_left' ⟨toString_inj, fun h => by rw [h]⟩

@[simp] theorem outName_inj {r r' : Nat} : outName r = outName r' ↔ r = r' := by
  unfold outName
  rw [fileName_inj]
  exact and_iff_right rfl

@[simp] theorem intermediateName_ne_outName (m r r' : Nat) : intermediateName m r ≠ outName r' := by
  intro h
  exact toString_ne (c := 'o') (by decide) (by decide) (fileName_inj.mp h).1

@[simp] theorem intermediateName_ne_mapTempName (m r i sfx : Nat) :
    intermediateName m r ≠ mapTempName i sfx := by
  intro h
  exact toString_ne (c := 'm') (by simp [String.toList_append]) (by decide) (fileName_inj.mp h).1

@[simp] theorem intermediateName_ne_reduceTempName (m r r' sfx : Nat) :
    intermediateName m r ≠ reduceTempName r' sfx := by
  intro h
  exact toString_ne (c := 'r') (by simp [String.toList_append]) (by decide) (fileName_inj.mp h).1

@[simp] theorem outName_ne_mapTempName (r i sfx : Nat) : outName r ≠ mapTempName i sfx := by
  intro h
  have hbody := congrArg String.toList (fileName_inj.mp h).1
  simp [String.toList_append] at hbody

@[simp] theorem outName_ne_reduceTempName (r r' sfx : Nat) : outName r ≠ reduceTempName r' sfx := by
  intro h
  have hbody := congrArg String.toList (fileName_inj.mp h).1
  simp [String.toList_append] at hbody

/-! ## What the wildcard finds -/

theorem globMatch_star (ps s : List Char) : globMatch ('*' :: ps) s = globStar (globMatch ps) s := by
  rw [globMatch.eq_def]
  simp

theorem globMatch_skip {c : Char} (hc : c ≠ '*') (ps s : List Char) :
    globMatch (c :: ps) (c :: s) = globMatch ps s := by
  rw [globMatch, if_neg hc, decide_eq_true rfl, Bool.true_and]

theorem globMatch_literal {p : List Char} (hp : '*' ∉ p) (s : List Char) :
    globMatch p s = true ↔ s = p := by
  induction p generalizing s with
  | nil => simp [globMatch]
  | cons c p ih =>
      have hc : c ≠ '*' := fun h => hp (h ▸ List.mem_cons_self ..)
      have hrest : '*' ∉ p := fun h => hp (List.mem_cons_of_mem c h)
      cases s with
      | nil => simp [globMatch, hc]
      | cons d s =>
          rw [globMatch, if_neg hc, Bool.and_eq_true, decide_eq_true_iff, ih hrest, List.cons.injEq]
          exact and_congr_left' eq_comm

/-- A star stands for some text without a separator, and the rest matches what follows. -/
theorem globStar_iff {f : List Char → Bool} (s : List Char) :
    globStar f s = true ↔ ∃ mid rest, s = mid ++ rest ∧ '/' ∉ mid ∧ f rest = true := by
  induction s with
  | nil =>
      constructor
      · intro h
        exact ⟨[], [], rfl, by simp, h⟩
      · rintro ⟨mid, rest, hs, -, hf⟩
        obtain ⟨-, rfl⟩ := List.append_eq_nil_iff.mp hs.symm
        exact hf
  | cons c s ih =>
      rw [globStar, Bool.or_eq_true, Bool.and_eq_true, ih]
      constructor
      · rintro (hf | ⟨hc, mid, rest, rfl, hmid, hf⟩)
        · exact ⟨[], c :: s, rfl, by simp, hf⟩
        · refine ⟨c :: mid, rest, rfl, ?_, hf⟩
          simp only [List.mem_cons, not_or]
          exact ⟨Ne.symm (of_decide_eq_true hc), hmid⟩
      · rintro ⟨mid, rest, hs, hmid, hf⟩
        cases mid with
        | nil =>
            left
            rw [show c :: s = rest from hs]
            exact hf
        | cons d mid =>
            obtain ⟨rfl, rfl⟩ := List.cons.inj hs
            right
            simp only [List.mem_cons, not_or] at hmid
            exact ⟨by simpa using Ne.symm hmid.1, mid, rest, rfl, hmid.2, hf⟩

/-- The wildcard of a reduce task finds every file with the task's number. -/
theorem globMatch_fileName {body : String} (hbody : '/' ∉ body.toList) (n r : Nat) :
    globMatch (inputPattern r).toList (fileName body n).toList = true ↔ n = r := by
  have hpat : (inputPattern r).toList = 'm' :: 'r' :: '-' :: '*' :: '-' :: (toString r).toList := by
    simp [inputPattern, String.toList_append]
  have hlit : '*' ∉ '-' :: (toString r).toList := by
    intro h
    rcases List.mem_cons.mp h with h | h
    · cases h
    · have hdigit := toString_digits r '*' h
      revert hdigit
      decide
  have hmatch : globMatch (inputPattern r).toList (fileName body n).toList = true
      ↔ ∃ mid rest, body.toList ++ '-' :: (toString n).toList = mid ++ rest ∧ '/' ∉ mid
        ∧ rest = '-' :: (toString r).toList := by
    rw [hpat, fileName_toList]
    simp only [List.cons_append]
    rw [globMatch_skip (by decide), globMatch_skip (by decide), globMatch_skip (by decide), globMatch_star,
      globStar_iff]
    simp only [globMatch_literal hlit]
  rw [hmatch]
  constructor
  · rintro ⟨mid, rest, hsplit, -, rfl⟩
    -- the star may take in dashes, but the last dash of the name is the last one of the pattern
    obtain ⟨-, hn⟩ := split_last_dash (dash_notMem_toString n) (dash_notMem_toString r) hsplit
    exact toString_inj (String.toList_inj.mp hn)
  · rintro rfl
    exact ⟨body.toList, _, rfl, hbody, rfl⟩

theorem mem_glob {dir : Dir} {pattern name : String} :
    name ∈ dir.glob pattern ↔ name ∈ dir ∧ globMatch pattern.toList name.toList = true := by
  unfold Dir.glob
  rw [List.mem_insertionSort, List.mem_filter, AList.mem_keys]

theorem glob_nodup (dir : Dir) (pattern : String) : (dir.glob pattern).Nodup := by
  unfold Dir.glob
  rw [(List.perm_insertionSort _ _).nodup_iff]
  exact dir.keys_nodup.filter _

end MapReduce
end DistributedLabs
