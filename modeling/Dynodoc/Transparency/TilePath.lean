import Mathlib.Data.String.Basic
import Dynodoc.Lib.Text

/-! The paths of hash tiles and entry bundles. -/
namespace Dynodoc.Transparency
open List Nat Text

variable {digits : List Char} {c : Char}

def tileWidth : Nat := 256

def tileHeight : Nat := 8

/-- Digits in groups of three, every group but the last after an `x`. -/
def groupPath : List Char → List Char
  | a :: b :: c :: d :: rest => 'x' :: a :: b :: c :: '/' :: groupPath (d :: rest)
  | last => last

def tileIndexPath (index : Nat) : String :=
  let digits := toDigits 10 index
  .ofList (groupPath (List.replicate ((3 - digits.length % 3) % 3) '0' ++ digits))

def withWidth (path : String) (width : Nat) : String :=
  if width = tileWidth then path else path ++ ".p/" ++ toString width

def hashTilePath (level index width : Nat) : String :=
  withWidth ("tile/" ++ toString level ++ "/" ++ tileIndexPath index) width

def entryBundlePath (index width : Nat) : String :=
  withWidth ("tile/entries/" ++ tileIndexPath index) width

example : tileIndexPath 1234067 = "x001/x234/067" := by decide +kernel

/-- Digits that are padded to groups of three. -/
structure Padded (digits : List Char) : Prop where
  some : digits ≠ []
  groups : digits.length % 3 = 0
  digits : ∀ c ∈ digits, c.isDigit

theorem Padded.cases (padded : Padded digits) : (∃ a b c, digits = [a, b, c] ∧ a ≠ 'x') ∨
    ∃ a b c d rest, digits = a :: b :: c :: d :: rest ∧ Padded (d :: rest) := by
  obtain ⟨some, groups, all⟩ := padded
  rcases digits with _ | ⟨a, _ | ⟨b, _ | ⟨c, _ | ⟨d, rest⟩⟩⟩⟩
  · contradiction
  · contradiction
  · contradiction
  · refine .inl ⟨a, b, c, rfl, ?_⟩
    rintro rfl
    exact absurd (all 'x' (by simp)) (by decide)
  · refine .inr ⟨a, b, c, d, rest, rfl, by simp, ?_, fun e mem => all e (by simp_all)⟩
    rw [length_cons, length_cons, length_cons] at groups
    omega

/-- Groups tell where they end, whatever comes after them: only the last one has no `x`. -/
theorem groupPath_append {digits digits' rest rest' : List Char} (padded : Padded digits)
    (padded' : Padded digits')
    (same : groupPath digits ++ rest = groupPath digits' ++ rest') : digits = digits' ∧ rest = rest' := by
  obtain ⟨a, b, c, rfl, plain⟩ | ⟨a, b, c, d, tail, rfl, later⟩ := padded.cases <;>
    obtain ⟨a', b', c', rfl, plain'⟩ | ⟨a', b', c', d', tail', rfl, later'⟩ := padded'.cases <;>
    simp only [groupPath, cons_append, nil_append, List.cons.injEq, true_and] at same
  · obtain ⟨rfl, rfl, rfl, rfl⟩ := same
    exact ⟨rfl, rfl⟩
  · exact absurd same.1 plain
  · exact absurd same.1.symm plain'
  · obtain ⟨rfl, rfl, rfl, same⟩ := same
    obtain ⟨same, rests⟩ := groupPath_append later later' same
    exact ⟨by rw [same], rests⟩
termination_by digits.length

theorem padded_index (index : Nat) :
    Padded (List.replicate ((3 - (toDigits 10 index).length % 3) % 3) '0' ++ toDigits 10 index) where
  some := append_ne_nil_of_right_ne_nil _ toDigits_ne_nil
  groups := by
    rw [length_append, length_replicate]
    omega
  digits := by
    intro c mem
    rcases mem_append.1 mem with zero | digit
    · rw [eq_of_mem_replicate zero]
      rfl
    · exact isDigit_of_mem_toDigits (by decide) (by decide) digit

theorem ofDigitChars_replicate (count : Nat) (digits : List Char) :
    ofDigitChars 10 (List.replicate count '0' ++ digits) 0 = ofDigitChars 10 digits 0 := by
  induction count with
  | zero => rfl
  | succ count ih => simpa [replicate_succ, ofDigitChars] using ih

theorem tileIndexPath_append {index index' : Nat} {rest rest' : List Char}
    (same : (tileIndexPath index).toList ++ rest = (tileIndexPath index').toList ++ rest') :
    index = index' ∧ rest = rest' := by
  rw [tileIndexPath, tileIndexPath, String.toList_ofList, String.toList_ofList] at same
  obtain ⟨digits, rests⟩ := groupPath_append (padded_index index) (padded_index index') same
  have value := congrArg (ofDigitChars 10 · 0) digits
  exact ⟨by simpa [ofDigitChars_replicate] using value, rests⟩

theorem toDigits_plain (n : Nat) (other : c.isDigit = false) : c ∉ toDigits 10 n := by
  intro mem
  rw [isDigit_of_mem_toDigits (by decide) (by decide) mem] at other
  contradiction

/-- The coordinates of a hash tile or an entry bundle. -/
inductive TileAt where
  | hashes (level index width : Nat)
  | entries (index width : Nat)

namespace TileAt

variable {place other : TileAt}

def path : TileAt → String
  | hashes level index width => hashTilePath level index width
  | entries index width => entryBundlePath index width

def folder : TileAt → List Char
  | hashes level .. => toDigits 10 level
  | entries .. => "entries".toList

def index : TileAt → Nat
  | hashes _ index _ | entries index _ => index

def width : TileAt → Nat
  | hashes _ _ width | entries _ width => width

def suffix (place : TileAt) : List Char :=
  if place.width = tileWidth then [] else '.' :: 'p' :: '/' :: toDigits 10 place.width

theorem toList_path (place : TileAt) : place.path.toList = "tile/".toList ++ (place.folder ++
    '/' :: ((tileIndexPath place.index).toList ++ place.suffix)) := by
  cases place <;> simp only [path, hashTilePath, entryBundlePath, withWidth, suffix, width] <;> split <;>
    simp [folder, index, *]

theorem slash_notMem_folder (place : TileAt) : '/' ∉ place.folder := by
  cases place with
  | hashes level => exact toDigits_plain level rfl
  | entries => simp [folder]

theorem of_path_append {rest : List Char} (same : place.path.toList ++ rest = other.path.toList) :
    place.folder = other.folder ∧ place.index = other.index ∧ place.suffix ++ rest = other.suffix := by
  rw [toList_path, toList_path, append_assoc, append_cancel_left_eq, append_assoc, cons_append] at same
  have split := congrArg (splitOnce '/') same
  rw [splitOnce_eq_some.2 ⟨rfl, place.slash_notMem_folder⟩,
    splitOnce_eq_some.2 ⟨rfl, other.slash_notMem_folder⟩] at split
  obtain ⟨folders, names⟩ := Prod.mk.inj (Option.some.inj split)
  rw [append_assoc] at names
  exact ⟨folders, tileIndexPath_append names⟩

theorem width_of_suffix (same : place.suffix = other.suffix) : place.width = other.width := by
  unfold suffix at same
  split at same <;> split at same
  · omega
  · contradiction
  · contradiction
  · simp only [List.cons.injEq, true_and] at same
    simpa using congrArg (ofDigitChars 10 · 0) same

theorem path_injective (same : place.path = other.path) : place = other := by
  obtain ⟨folders, indexes, suffixes⟩ := @of_path_append place other [] (by rw [append_nil, same])
  rw [append_nil] at suffixes
  have widths := width_of_suffix suffixes
  have digits (level : Nat) : toDigits 10 level ≠ "entries".toList := fun named =>
    toDigits_plain level (c := 'e') rfl (named ▸ by simp)
  cases place with
  | hashes level =>
    cases other with
    | hashes level' =>
      have levels : level = level' := by
        simpa [folder] using congrArg (ofDigitChars 10 · 0) folders
      simp_all [index, width]
    | entries => exact absurd folders (digits level)
  | entries =>
    cases other with
    | hashes level => exact absurd folders.symm (digits level)
    | entries => simp_all [index, width]

theorem not_nested (rest : String) : other.path ≠ place.path ++ "/" ++ rest := by
  intro nested
  have lists := congrArg String.toList nested
  rw [String.toList_append, String.toList_append, append_assoc] at lists
  obtain ⟨-, -, suffixes⟩ := of_path_append lists.symm
  unfold suffix at suffixes
  split at suffixes <;> split at suffixes <;> simp at suffixes
  exact toDigits_plain other.width (c := '/') rfl (suffixes ▸ by simp)

end TileAt

/-- Two tiles or bundles have different paths, and none is a directory on the path of another. -/
theorem tile_paths_never_nest : Function.Injective TileAt.path ∧
    ∀ (place other : TileAt) (rest : String), other.path ≠ place.path ++ "/" ++ rest :=
  ⟨fun _ _ same => TileAt.path_injective same, fun _ _ rest => TileAt.not_nested rest⟩

end Dynodoc.Transparency
