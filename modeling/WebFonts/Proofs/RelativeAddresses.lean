import Mathlib.Data.List.Basic
import WebFonts.Rule.Address

/-!
# A relative address leads back to the same file

A relative address is followed from a directory segment by segment, as a path of a site is followed
from the root. Directories are kept here as the names of their levels, which the relative address
itself never sees: it is built from their number alone. Main results:

* `length_place`: that number is the number of levels of the directory;
* `relativeTo_climbs_to_the_root`: an address with exactly one slash in front is written as a climb
  that ends exactly at the root, in front of its path. All other addresses are written as they are.
-/

namespace WebFonts.Rule

/-! ### Following a path -/

/-- A directory as the names of its levels, the innermost first. The root has none. -/
abbrev Place := List (List Char)

/-- The directory that one segment of a path leads to. Climbing above the root stays there. -/
def Place.enter (place : Place) (segment : List Char) : Place :=
  match segment with
  | [] | ['.'] => place
  | ['.', '.'] => place.tail
  | name => name :: place

/-- The directory that segments lead to, one after the other. -/
def Place.follow (place : Place) (segments : List (List Char)) : Place :=
  segments.foldl Place.enter place

/-- The directory that a path from the root leads to. -/
def Place.ofPath (path : List Char) : Place :=
  Place.follow [] (path.splitOn '/')

@[simp] theorem Place.follow_append (place : Place) (front back : List (List Char)) :
    place.follow (front ++ back) = (place.follow front).follow back :=
  List.foldl_append

/-- Every step up leaves the innermost level. -/
theorem Place.follow_replicate (place : Place) (n : Nat) :
    place.follow (List.replicate n ['.', '.']) = place.drop n := by
  induction n generalizing place with
  | zero => rfl
  | succ n ih =>
    calc place.follow (List.replicate (n + 1) ['.', '.'])
        = Place.follow place.tail (List.replicate n ['.', '.']) := rfl
      _ = place.tail.drop n := ih place.tail
      _ = place.drop (n + 1) := List.drop_tail

/-! ### The number of levels -/

/-- The number of levels behind a segment is told from the number in front of it. -/
theorem Place.length_enter (place : Place) (segment : List Char) :
    (place.enter segment).length = descend place.length segment := by
  unfold Place.enter descend
  split <;> simp

/-- The same for several segments. -/
theorem Place.length_follow (place : Place) (segments : List (List Char)) :
    (place.follow segments).length = segments.foldl descend place.length := by
  induction segments generalizing place with
  | nil => rfl
  | cons segment rest ih =>
    rw [List.foldl_cons, ← Place.length_enter]
    exact ih (place.enter segment)

/-- The depth of a directory is the number of its levels. -/
theorem Place.length_ofPath (directory : List Char) :
    (Place.ofPath directory).length = depth directory :=
  Place.length_follow [] _

/-! ### The segments of a relative address -/

/-- A step up is a segment of its own in front of any path. -/
theorem splitOn_climb (n : Nat) (path : List Char) :
    ((List.replicate n ['.', '.', '/']).flatten ++ path).splitOn '/' =
      List.replicate n ['.', '.'] ++ path.splitOn '/' := by
  induction n with
  | zero => rfl
  | succ n ih =>
    calc ((List.replicate (n + 1) ['.', '.', '/']).flatten ++ path).splitOn '/'
        = (['.', '.'] ++ '/' ::
            ((List.replicate n ['.', '.', '/']).flatten ++ path)).splitOn '/' := by
          rw [List.replicate_succ, List.flatten_cons, List.append_assoc]
          rfl
      _ = ['.', '.'] :: ((List.replicate n ['.', '.', '/']).flatten ++ path).splitOn '/' :=
          List.splitOnP_append_cons_of_forall_mem (by simp) '/' (by decide) _
      _ = List.replicate (n + 1) ['.', '.'] ++ path.splitOn '/' := by
          rw [ih, List.replicate_succ]
          rfl

theorem rootPath?_of_eq_cons {address path : List Char} (haddress : address = '/' :: path)
    (hslash : path.head? ≠ some '/') : rootPath? address = some path := by
  subst haddress
  unfold rootPath?
  split
  · simp_all
  · simp_all
  · simp_all

theorem rootPath?_eq_none {address : List Char}
    (h : ∀ path, address = '/' :: path → path.head? = some '/') : rootPath? address = none := by
  unfold rootPath?
  split
  · rfl
  · rename_i path hother
    have := h path rfl
    cases path <;> simp_all
  · rfl

/-- Followed from the directory, the address of a file below the root climbs level by level, stands
at the root exactly when its steps up are spent, and goes on with the path of the file as it was
given. Every other address is kept. -/
theorem relativeTo_climbs_to_the_root (directory address : String) :
    (∀ path, address.toList = '/' :: path → path.head? ≠ some '/' →
      ∃ climb : List (List Char),
        (relativeTo directory address).toList = climb.flatMap (· ++ ['/']) ++ path ∧
        (relativeTo directory address).toList.splitOn '/' = climb ++ path.splitOn '/' ∧
        climb.length = (Place.ofPath directory.toList).length ∧
        (∀ k ≤ climb.length, (Place.ofPath directory.toList).follow (climb.take k) =
          (Place.ofPath directory.toList).drop k) ∧
        (Place.ofPath directory.toList).follow climb = [] ∧
        (Place.ofPath directory.toList).follow
          ((relativeTo directory address).toList.splitOn '/') = Place.ofPath path) ∧
    ((∀ path, address.toList = '/' :: path → path.head? = some '/') →
      relativeTo directory address = address) := by
  refine ⟨fun path haddress hslash => ?_, fun h => ?_⟩
  · have htext : (relativeTo directory address).toList =
        (List.replicate (depth directory.toList) ['.', '.', '/']).flatten ++ path := by
      rw [relativeTo, rootPath?_of_eq_cons haddress hslash, String.toList_ofList]
    have hsegments := congrArg (List.splitOn '/') htext
    rw [splitOn_climb] at hsegments
    have hroot : (Place.ofPath directory.toList).follow
        (List.replicate (depth directory.toList) ['.', '.']) = [] := by
      rw [Place.follow_replicate, ← Place.length_ofPath, List.drop_length]
    refine ⟨List.replicate (depth directory.toList) ['.', '.'], ?_, hsegments, ?_, ?_, hroot,
      ?_⟩
    · simp [htext, List.flatMap_def]
    · rw [List.length_replicate, Place.length_ofPath]
    · intro k hk
      rw [List.length_replicate] at hk
      rw [List.take_replicate, Nat.min_eq_left hk, Place.follow_replicate]
    · rw [hsegments, Place.follow_append, hroot, Place.ofPath]
  · rw [relativeTo, rootPath?_eq_none h]

/-- A directory with steps up, steps that stay and a level that is left again. -/
theorem relativeTo_climbs_from_css :
    "/fonts/../a.woff2".toList = '/' :: "fonts/../a.woff2".toList ∧
    "fonts/../a.woff2".toList.head? ≠ some '/' ∧
    (∀ path, "//host/a.woff2".toList = '/' :: path → path.head? = some '/') ∧
    Place.ofPath "../assets/./x/../css/".toList = ["css".toList, "assets".toList] ∧
    (∃ climb : List (List Char),
      (relativeTo "../assets/./x/../css/" "/fonts/../a.woff2").toList =
        climb.flatMap (· ++ ['/']) ++ "fonts/../a.woff2".toList ∧
      climb.length = (Place.ofPath "../assets/./x/../css/".toList).length) ∧
    relativeTo "../assets/./x/../css/" "//host/a.woff2" = "//host/a.woff2" := by
  have hother : ∀ path, "//host/a.woff2".toList = '/' :: path → path.head? = some '/' := by
    rintro path hpath
    obtain rfl : "/host/a.woff2".toList = path := by simpa using hpath
    decide
  obtain ⟨climb, htext, -, hlength, -⟩ :=
    (relativeTo_climbs_to_the_root "../assets/./x/../css/" "/fonts/../a.woff2").1
      "fonts/../a.woff2".toList (by decide) (by decide)
  exact ⟨by decide, by decide, hother, by decide, ⟨climb, htext, hlength⟩,
    (relativeTo_climbs_to_the_root "../assets/./x/../css/" "//host/a.woff2").2 hother⟩

example : relativeTo "../assets/./x/../css/" "/fonts/../a.woff2" = "../../fonts/../a.woff2" := by
  decide

end WebFonts.Rule
