/-
The files of the web UI on disk, `api/static_assets.c`: the check of the path as its loop makes it, and the names that are
opened, each cut to the 1023 characters of `fs_path`.
-/
import BitForge.Api.Connection
import BitForge.Lib.PathName
import Mathlib.Data.List.TakeWhile

namespace BitForge.Api

open BitForge.Lib

/-- The loop of `static_assets_path_is_safe` at `p`. -/
def segmentsSafe : Nat → List UInt8 → Bool
  | 0, _ => true
  | _, [] => true
  | fuel + 1, p =>
    if p.takeWhile (· ≠ 47) = dotDot then false
    else
      match afterChar 47 p with
      | none => true
      | some q => segmentsSafe fuel q

/-- `static_assets_path_is_safe`, as the loop over the segments. -/
def pathIsSafe (path : List UInt8) : Bool := if path.head? ≠ some 47 then false else segmentsSafe path.length path

/-- `snprintf` into `fs_path`. -/
def fsPath (text : List UInt8) : List UInt8 := text.take 1023

/-- The names that `serve_from_disk` opens, where the first is found or not. -/
def openedNames (found : Bool) (staticDir path : List UInt8) : List (List UInt8) :=
  if ¬ pathIsSafe path then []
  else
    let first := if path = ascii "/" then fsPath (staticDir ++ ascii "/index.html") else fsPath (staticDir ++ path)
    if ¬ found ∧ ¬ isAssetPath path then [first, fsPath (staticDir ++ ascii "/index.html")] else [first]

/-! ## The check -/

/-- The loop looks at every segment. -/
theorem segmentsSafe_iff : ∀ {fuel : Nat} {p : List UInt8}, p.length ≤ fuel →
    (segmentsSafe fuel p = true ↔ dotDot ∉ p.splitOn 47)
  | fuel, [], _ => by
    have hsafe : segmentsSafe fuel [] = true := by cases fuel <;> rfl
    simp [hsafe, dotDot]
  | fuel + 1, c :: p, hle => by
    rw [segmentsSafe]
    · cases hnext : afterChar 47 (c :: p) with
      | none =>
        have hno := afterChar_eq_none hnext
        have hall : (c :: p).takeWhile (· ≠ 47) = c :: p := by
          rw [List.takeWhile_eq_self_iff]
          intro x hx
          simpa using ne_of_mem_of_not_mem hx hno
        rw [List.splitOn_eq_singleton hno, hall, List.mem_singleton]
        split_ifs with hdots
        · simp [hdots]
        · simp [Ne.symm hdots]
      | some q =>
        have heq := afterChar_eq_some hnext
        have hno := not_mem_takeWhile 47 (c :: p)
        generalize (c :: p).takeWhile (· ≠ 47) = seg at heq hno
        have hlen : q.length ≤ fuel := by
          have := congrArg List.length heq
          rw [List.length_append, List.length_cons, List.length_cons] at this
          rw [List.length_cons] at hle
          omega
        rw [heq, List.splitOn_append_cons_self_of_not_mem hno, List.mem_cons, not_or, ← segmentsSafe_iff hlen]
        split_ifs with hdots
        · simp [hdots]
        · simp [Ne.symm hdots]
    · simp

theorem pathIsSafe_iff (path : List UInt8) : pathIsSafe path = true ↔ path.head? = some 47 ∧ dotDot ∉ path.splitOn 47 := by
  unfold pathIsSafe
  split_ifs with hhead
  · simp [hhead]
  · rw [segmentsSafe_iff (le_refl _)]
    simp [not_not.1 hhead]

/-- The check that the connection makes is this loop. -/
theorem staticAssetsPathIsSafe_eq (path : List UInt8) : staticAssetsPathIsSafe path = pathIsSafe path := by
  rw [Bool.eq_iff_iff, pathIsSafe_iff]
  unfold staticAssetsPathIsSafe
  rw [decide_eq_true_eq]
  rfl

/-- The status depends on the files only through the names that are opened. -/
theorem serveFromDisk_congr {env env' : Surroundings} {staticDir path : List UInt8}
    (h : ∀ found, ∀ name ∈ openedNames found staticDir path, env.openFile name = env'.openFile name) :
    serveFromDisk env staticDir path = serveFromDisk env' staticDir path := by
  unfold serveFromDisk
  rw [staticAssetsPathIsSafe_eq]
  by_cases hsafe : pathIsSafe path = true
  · have hnames : ∀ found, openedNames found staticDir path =
        if ¬ found ∧ ¬ isAssetPath path then
          [fsPath (if path = ascii "/" then staticDir ++ ascii "/index.html" else staticDir ++ path),
            fsPath (staticDir ++ ascii "/index.html")]
        else [fsPath (if path = ascii "/" then staticDir ++ ascii "/index.html" else staticDir ++ path)] := by
      intro found
      unfold openedNames
      rw [if_neg (by simpa using hsafe), apply_ite fsPath]
    have hfirst := h true _ (by rw [hnames, if_neg (by simp)]; exact List.mem_cons_self)
    have hindex : ¬ isAssetPath path → env.openFile (fsPath (staticDir ++ ascii "/index.html")) =
        env'.openFile (fsPath (staticDir ++ ascii "/index.html")) := by
      intro hasset
      apply h false
      rw [hnames, if_pos ⟨by simp, hasset⟩]
      simp
    unfold fsPath at hfirst hindex
    rw [if_neg (not_not.2 hsafe), if_neg (not_not.2 hsafe)]
    dsimp only
    rw [hfirst]
    by_cases hagain : env'.openFile ((if path = ascii "/" then staticDir ++ ascii "/index.html" else staticDir ++ path).take
        1023) = .missing ∧ ¬ isAssetPath path
    · rw [if_pos hagain, if_pos hagain, hindex hagain.2]
    · rw [if_neg hagain, if_neg hagain]
  · simp [hsafe]

/-! ## What is opened -/

/-- The name of `index.html` has no segment `..`, wherever it is cut. -/
theorem indexHtml_take (k : Nat) : dotDot ∉ ((ascii "/index.html").take k).splitOn 47 := by
  have hcut : ∀ j < 12, dotDot ∉ ((ascii "/index.html").take j).splitOn 47 := by decide
  rcases Nat.lt_or_ge k 12 with hlt | hge
  · exact hcut k hlt
  · have hall : (ascii "/index.html").take k = (ascii "/index.html").take 11 := by
      rw [List.take_of_length_le (by change 11 ≤ k; omega), List.take_of_length_le (by decide)]
    rw [hall]
    exact hcut 11 (by decide)

theorem isUnder_fsPath {staticDir tail : List UInt8} (hdir : staticDir ≠ []) (hlen : staticDir.length ≤ 1023)
    (hhead : tail.head? = some 47) (hcut : dotDot ∉ (tail.take (1023 - staticDir.length)).splitOn 47) :
    IsUnder staticDir (fsPath (staticDir ++ tail)) := by
  unfold fsPath
  rw [List.take_append, List.take_of_length_le hlen]
  refine isUnder_append hdir ?_ hcut
  cases hroom : 1023 - staticDir.length with
  | zero => exact .inl (List.take_zero ..)
  | succ k =>
    right
    rw [List.head?_take, if_neg (by omega), hhead]

/-- The check passes the paths that start with a slash and have no segment `..`, and what is opened stays under the
directory unless the cut leaves a segment `..`. -/
theorem openedNames_under (staticDir path : List UInt8) :
    (pathIsSafe path = true ↔ path.head? = some 47 ∧ dotDot ∉ path.splitOn 47) ∧
      (staticDir ≠ [] → staticDir.length ≤ 1023 →
        (staticDir.length + path.length ≤ 1023 ∨ dotDot ∉ (path.take (1023 - staticDir.length)).splitOn 47) →
          ∀ found, ∀ name ∈ openedNames found staticDir path, IsUnder staticDir name) := by
  refine ⟨pathIsSafe_iff path, fun hdir hlen hcut found name hname => ?_⟩
  have hindex : IsUnder staticDir (fsPath (staticDir ++ ascii "/index.html")) :=
    isUnder_fsPath hdir hlen (by decide) (indexHtml_take _)
  unfold openedNames at hname
  by_cases hsafe : pathIsSafe path = true
  · obtain ⟨hhead, hdots⟩ := (pathIsSafe_iff path).1 hsafe
    have htail : dotDot ∉ (path.take (1023 - staticDir.length)).splitOn 47 := by
      rcases hcut with hfits | hcut
      · rwa [List.take_of_length_le (by omega)]
      · exact hcut
    have hfirst : IsUnder staticDir
        (if path = ascii "/" then fsPath (staticDir ++ ascii "/index.html") else fsPath (staticDir ++ path)) := by
      split_ifs
      · exact hindex
      · exact isUnder_fsPath hdir hlen hhead htail
    rw [if_neg (not_not.2 hsafe)] at hname
    dsimp only at hname
    by_cases hboth : ¬ found = true ∧ ¬ isAssetPath path = true
    · rw [if_pos hboth, List.mem_cons, List.mem_singleton] at hname
      rcases hname with rfl | rfl
      · exact hfirst
      · exact hindex
    · rw [if_neg hboth, List.mem_singleton] at hname
      rw [hname]
      exact hfirst
  · rw [if_pos hsafe] at hname
    exact absurd hname List.not_mem_nil

theorem openedNames_under_app : ∀ name ∈ openedNames false (ascii "../web") (ascii "/a..b/app.js"), IsUnder (ascii "../web") name :=
  (openedNames_under (ascii "../web") (ascii "/a..b/app.js")).2 (by decide) (by decide) (.inl (by decide)) false

/-- A request whose path starts without a slash is rejected. And a name of 1025 characters is cut behind the dots, in the
directory above. -/
theorem dots_left_by_the_cut :
    ((httpParse (ascii "GET app.js HTTP/1.1\r\n\r\n")).map HttpRequest.path = some (ascii "app.js") ∧
      dotDot ∉ (ascii "app.js").splitOn 47 ∧ pathIsSafe (ascii "app.js") = false) ∧
    ((httpParse (ascii "GET /..js HTTP/1.1\r\n\r\n")).map HttpRequest.path = some (ascii "/..js") ∧
      ∃ name ∈ openedNames true (List.replicate 1020 97) (ascii "/..js"), ¬ IsUnder (List.replicate 1020 97) name) := by
  have hname : (normalName (fsPath (List.replicate 1020 97 ++ ascii "/..js"))).segments = [] := by decide +kernel
  have hdir : (normalName (List.replicate 1020 97)).segments ≠ [] := by decide +kernel
  refine ⟨by decide, by decide, fsPath (List.replicate 1020 97 ++ ascii "/..js"), ?_, ?_⟩
  · decide +kernel
  · rintro ⟨-, rest, hrest, -⟩
    rw [hname] at hrest
    exact hdir (List.append_eq_nil_iff.1 hrest.symm).1

end BitForge.Api
