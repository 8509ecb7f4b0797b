import RouteTags.Config.Store
import RouteTags.Proofs.Files.Writing
import RouteTags.Proofs.Json.Records

namespace RouteTags

open Json

def Side.IsText (s : List Char) (side : Side) : Prop :=
  IsRecord (Bracketed .list Quoted) [] foldersField extensionsField s side.folders side.extensions

theorem Side.reads_isText : Reads Side.read Side.IsText := by
  intro s side isText before leading rest
  have different : Side.shape.first ≠ Side.shape.second := by decide
  have readsField : Reads Side.shape.readField (Bracketed .list Quoted) := reads_list
  obtain ⟨folders, extensions, read, isFolders, isExtensions⟩ :=
    readRecord_isRecord readsField different isText leading rest
  simp only [Side.read, read, bind, Except.bind, pure, Except.pure, isFolders, isExtensions]

namespace Config

inductive IsText : List Char → Config → Prop
  | intro {before s after c} (leading : Spaces before)
      (isRecord : IsRecord Side.IsText .everything frontendField backendField s c.frontend c.backend)
      (trailing : Spaces after) : IsText (before ++ (s ++ after)) c

theorem readAll_isText {s : List Char} {c : Config} (isText : IsText s c) :
    readAll (Text.encode s) = .ok c := by
  obtain ⟨leading, isRecord, trailing⟩ := isText
  rename_i before record after
  have different : shape.first ≠ shape.second := by decide
  have readsField : Reads shape.readField Side.IsText := Side.reads_isText
  obtain ⟨frontend, backend, read, isFrontend, isBackend⟩ :=
    readRecord_isRecord readsField different isRecord leading (Text.encode after)
  have nothing : skipLayout (Text.encode after) = [] := by
    have all := skipLayout_append (isLayout_encode trailing) []
    rwa [List.append_nil] at all
  rw [Text.encode_append, Text.encode_append, readAll, read]
  simp only [bind, Except.bind, nothing, isFrontend, isBackend]
  rfl

theorem ofBytes_isText {text : String} {c : Config} (isText : IsText text.toList c) :
    ofBytes text.toUTF8 = .ok c := by
  rw [ofBytes, Text.toList_toUTF8]
  simp only [Text.utf8, readAll_isText isText]

/-- Whatever the layout of a configuration and whatever else is in it, reading its file gives what
it means. -/
theorem tryLoad_isText {t : FileTree} {cwd : Location} {root : Path} {text : String} {c : Config}
    (isText : IsText text.toList c) (there : t.readBytes cwd (configPath root) = .ok text.toUTF8) :
    tryLoad t cwd root = .ok (some c) := by
  have found : t.pathExists cwd (configPath root) = true := by
    unfold FileTree.readBytes at there
    unfold FileTree.pathExists
    cases h : t.lookup cwd (configPath root) with
    | ok place => rfl
    | error cause =>
      rw [h] at there
      cases there
  simp only [tryLoad, found, there, ofBytes_isText isText]
  rfl

def oddText : String :=
  "\x7b\"a\":[-1.5e+3,\x7b\x7d], \"front\\u0065nd\":\n\x7b\"includeFolders\":[\"\\ud83d\\ude00\"]\x7d\x7d\t"

def oddMeaning : Config := ⟨⟨[String.ofList [Char.ofNat 0x1F600]], []⟩, .everything⟩

theorem wellFormed_odd : WellFormed .value "[-1.5e+3,\x7b\x7d]".toList := by
  have number : IsNumber "-1.5e+3".toList :=
    @IsNumber.intro ['-'] ['1'] ['.', '5'] ['e', '+', '3'] (by decide) (.inr (by decide))
      (.inr ⟨['5'], by decide, rfl⟩) (.inr ⟨'e', ['+'], ['3'], by decide, by decide, by decide, rfl⟩)
  exact .full .list (.more .item spaces_nil (.number number) spaces_nil
    (.last .item spaces_nil (.empty .record spaces_nil) spaces_nil))

theorem isText_oddSide :
    Side.IsText "\x7b\"includeFolders\":[\"\\ud83d\\ude00\"]\x7d".toList oddMeaning.frontend := by
  have high : LongEscape "\\ud83d".toList (((13 * 16 + 8) * 16 + 3) * 16 + 13) :=
    .intro (by decide) (by decide) (by decide) (by decide)
  have low : LongEscape "\\ude00".toList (((13 * 16 + 14) * 16 + 0) * 16 + 0) :=
    .intro (by decide) (by decide) (by decide) (by decide)
  have folder : Quoted "\"\\ud83d\\ude00\"".toList (String.ofList [Char.ofNat 0x1F600]) :=
    .intro (.pair high (by decide) low (by decide) .nil)
  have list : Bracketed .list Quoted "[\"\\ud83d\\ude00\"]".toList oddMeaning.frontend.folders :=
    .full (.last spaces_nil folder spaces_nil)
  have name : Quoted "\"includeFolders\"".toList foldersField :=
    .intro (denotes_plain (by decide) .nil : Denotes ("includeFolders".toList ++ []) _)
  have member : IsMember "\"includeFolders\":[\"\\ud83d\\ude00\"]".toList
      ⟨foldersField, "[\"\\ud83d\\ude00\"]".toList⟩ :=
    @IsMember.intro _ _ _ ⟨foldersField, _⟩ name spaces_nil spaces_nil
  have divided : "\x7b\"includeFolders\":[\"\\ud83d\\ude00\"]\x7d".toList = '\x7b' ::
      (([] ++ ("\"includeFolders\":[\"\\ud83d\\ude00\"]".toList ++ [])) ++ ['\x7d']) := by
    decide +kernel
  rw [divided]
  refine .intro (.full (.last spaces_nil member spaces_nil)) list rfl ?_
  intro m only notFirst
  rw [List.mem_singleton.mp only] at notFirst
  exact absurd rfl notFirst

theorem isText_odd : IsText oddText.toList oddMeaning := by
  have name : Quoted "\"a\"".toList "a" :=
    .intro (denotes_plain (by decide) .nil : Denotes ("a".toList ++ []) _)
  have letter : LongEscape "\\u0065".toList (((0 * 16 + 0) * 16 + 6) * 16 + 5) :=
    .intro (by decide) (by decide) (by decide) (by decide)
  have frontend : Quoted "\"front\\u0065nd\"".toList frontendField :=
    .intro (denotes_plain (by decide) (.long letter (by decide) (denotes_plain (by decide) .nil)) :
      Denotes ("front".toList ++ ("\\u0065".toList ++ ("nd".toList ++ []))) _)
  have other : IsMember "\"a\":[-1.5e+3,\x7b\x7d]".toList ⟨"a", "[-1.5e+3,\x7b\x7d]".toList⟩ :=
    @IsMember.intro _ _ _ ⟨"a", _⟩ name spaces_nil spaces_nil
  have side : IsMember
      "\"front\\u0065nd\":\n\x7b\"includeFolders\":[\"\\ud83d\\ude00\"]\x7d".toList
      ⟨frontendField, "\x7b\"includeFolders\":[\"\\ud83d\\ude00\"]\x7d".toList⟩ :=
    @IsMember.intro _ [] ['\n'] ⟨frontendField, _⟩ frontend spaces_nil (by decide)
  have blank : Spaces [' '] := by decide
  have tab : Spaces ['\t'] := by decide
  have divided : oddText.toList = [] ++ (('\x7b' ::
      (([] ++ ("\"a\":[-1.5e+3,\x7b\x7d]".toList ++ ([] ++ ',' :: ([' '] ++
        ("\"front\\u0065nd\":\n\x7b\"includeFolders\":[\"\\ud83d\\ude00\"]\x7d".toList ++ []))))) ++
      ['\x7d'])) ++ ['\t']) := by decide +kernel
  rw [divided]
  refine .intro spaces_nil (.intro
    (.full (.more spaces_nil other spaces_nil (.last blank side spaces_nil)))
    isText_oddSide rfl ?_) tab
  intro m listed notFrontend _
  simp only [List.mem_cons, List.not_mem_nil, or_false] at listed
  rcases listed with rfl | rfl
  · exact wellFormed_odd
  · exact absurd rfl notFrontend

def treeOf (text : String) : FileTree where
  entries := [(["ws"], .folder), (["ws", ".endpointer"], .folder),
    (["ws", ".endpointer", "config.json"], .file text.toUTF8)]
  ascending := by
    simp only [List.pairwise_cons, List.mem_cons, List.not_mem_nil, or_false, forall_eq_or_imp,
      forall_eq, false_imp_iff, implies_true, List.Pairwise.nil, and_true]
    decide +kernel

theorem tryLoad_oddText : IsText oddText.toList oddMeaning ∧
    tryLoad (treeOf oddText) [] ⟨"/ws"⟩ = .ok (some oddMeaning) := by
  refine ⟨isText_odd, tryLoad_isText isText_odd ?_⟩
  decide +kernel

def loneText : String := "\x7b\"\\ud800\":0\x7d"

/-- The name of that member is a string by its syntax, and denotes no text: the configuration
cannot be read. -/
theorem tryLoad_loneText : WellFormed .value loneText.toList ∧
    tryLoad (treeOf loneText) [] ⟨"/ws"⟩ =
      .error (.malformed (configPath ⟨"/ws"⟩) ⟨.unfinishedSurrogate, 1, 9⟩) := by
  have surrogate : LongEscape "\\ud800".toList (((13 * 16 + 8) * 16 + 0) * 16 + 0) :=
    .intro (by decide) (by decide) (by decide) (by decide)
  have name : StringBody ("\\ud800".toList ++ []) := .long surrogate .nil
  have zero : IsNumber "0".toList :=
    @IsNumber.intro [] ['0'] [] [] (by decide) (.inl rfl) (.inl rfl) (.inl rfl)
  have wellFormed : WellFormed .value loneText.toList :=
    .full .record (.last (.member spaces_nil name spaces_nil) spaces_nil (.number zero) spaces_nil)
  have bytes : (treeOf loneText).readBytes [] (configPath ⟨"/ws"⟩) = .ok loneText.toUTF8 := by
    decide +kernel
  have there : (treeOf loneText).pathExists [] (configPath ⟨"/ws"⟩) = true := by decide +kernel
  have fault : ofBytes loneText.toUTF8 = .error ⟨.unfinishedSurrogate, 1, 9⟩ := by decide +kernel
  refine ⟨wellFormed, ?_⟩
  simp only [tryLoad, there, bytes, fault]
  rfl

end Config

end RouteTags
