import RouteTags.Proofs.Config.Texts

namespace RouteTags

namespace Json

theorem spaces_newline (depth : Nat) : Spaces (newline depth).toList := by
  intro c hc
  simp only [newline, String.toList_append, String.toList_ofList, List.mem_append] at hc
  rcases hc with hc | hc
  · rw [List.mem_singleton.mp hc]
    decide
  · rw [List.eq_of_mem_replicate hc]
    decide

theorem control_written : ∀ n < 0x20, ∃ x ∈ hexDigits, ∃ y ∈ hexDigits,
    hexPair n = [x.1, y.1] ∧ n = ((0 * 16 + 0) * 16 + x.2) * 16 + y.2 := by
  decide

theorem denotes_escaped (c : Char) {s t : List Char} (rest : Denotes s t) :
    Denotes (escaped c ++ s) (c :: t) := by
  unfold escaped
  -- The short escapes, the control characters that have none, and what is written as it is.
  split
  · exact .short (by decide) rest
  · exact .short (by decide) rest
  · exact .short (by decide) rest
  · exact .short (by decide) rest
  · exact .short (by decide) rest
  · exact .short (by decide) rest
  · exact .short (by decide) rest
  · rename_i noQuote noBackslash _ _ _ _ _
    split
    · rename_i control
      obtain ⟨x, highDigit, y, lowDigit, pair, value⟩ := control_written c.toNat control
      have escape : LongEscape ['\\', 'u', '0', '0', x.1, y.1] c.toNat := by
        rw [value]
        exact .intro (by decide) (by decide) highDigit lowDigit
      have long := Denotes.long escape (.inl (by omega)) rest
      rw [Char.ofNat_toNat] at long
      rw [pair]
      exact long
    · rename_i printed
      exact .plain ⟨by omega, noQuote, noBackslash⟩ rest

theorem quoted_quotedText (s : String) : Quoted (quotedText s).toList s := by
  have denotes : ∀ t : List Char, Denotes (t.flatMap escaped) t := by
    intro t
    induction t with
    | nil => exact .nil
    | cons c t ih => exact denotes_escaped c ih
  have quoted := Quoted.intro (denotes s.toList)
  rw [String.ofList_toList] at quoted
  simpa [quotedText] using quoted

theorem separated_renderItems (depth : Nat) {after : List Char} (trailing : Spaces after)
    (first : String) (items : List String) :
    Separated Quoted ((newline depth).toList ++ ((quotedText first).toList ++
      ((renderItems depth (items.map .text)).toList ++ after))) (first :: items) := by
  induction items generalizing first with
  | nil => exact .last (spaces_newline depth) (quoted_quotedText first) trailing
  | cons next items ih =>
    have more := Separated.more (spaces_newline depth) (quoted_quotedText first) spaces_nil (ih next)
    simpa [renderItems, render] using more

theorem bracketed_render (items : List String) (depth : Nat) :
    Bracketed .list Quoted ((Json.list (items.map .text)).render depth).toList items := by
  cases items with
  | nil =>
    rw [List.map_nil, render]
    exact .empty spaces_nil
  | cons first items =>
    have inside := separated_renderItems (depth + 1) (spaces_newline depth) first items
    have full : Bracketed .list Quoted _ (first :: items) := .full inside
    simpa [render, Frame.left, Frame.right] using full

theorem isMember_written (name : String) (v : Json) (depth : Nat) :
    IsMember ((quotedText name).toList ++ ([] ++ ':' :: ([' '] ++ (v.render depth).toList)))
      ⟨name, (v.render depth).toList⟩ := by
  have blank : Spaces [' '] := by decide
  let m : Member := ⟨name, (v.render depth).toList⟩
  have isName : Quoted (quotedText name).toList m.name := quoted_quotedText name
  exact .intro isName spaces_nil blank

theorem isRecord_render {α : Type} {Value : List Char → α → Prop} {default a b : α}
    {first second : String} (different : first ≠ second) {v w : Json} {depth : Nat}
    (isFirst : Value (v.render (depth + 1)).toList a)
    (isSecond : Value (w.render (depth + 1)).toList b) :
    IsRecord Value default first second
      ((Json.record [(first, v), (second, w)]).render depth).toList a b := by
  have inside := Separated.more (spaces_newline (depth + 1)) (isMember_written first v (depth + 1))
    spaces_nil (.last (spaces_newline (depth + 1)) (isMember_written second w (depth + 1))
      (spaces_newline depth))
  have full : Bracketed .record IsMember _ _ := .full inside
  have written : Bracketed .record IsMember
      ((Json.record [(first, v), (second, w)]).render depth).toList
      [⟨first, (v.render (depth + 1)).toList⟩, ⟨second, (w.render (depth + 1)).toList⟩] := by
    simpa [render, renderMembers, Frame.left, Frame.right] using full
  refine .intro written ?_ ?_ ?_
  · simpa [Given, different.symm] using isFirst
  · simpa [Given, different] using isSecond
  · intro m member notFirst notSecond
    simp only [List.mem_cons, List.not_mem_nil, or_false] at member
    rcases member with rfl | rfl
    · exact absurd rfl notFirst
    · exact absurd rfl notSecond

end Json

open Json

theorem Side.isText_render (s : Side) (depth : Nat) : s.IsText (s.toJson.render depth).toList :=
  isRecord_render (by decide) (bracketed_render s.folders (depth + 1))
    (bracketed_render s.extensions (depth + 1))

theorem Config.isText_fileText (c : Config) : IsText c.fileText.toList c := by
  have isRecord : IsRecord Side.IsText .everything frontendField backendField
      (c.toJson.render 0).toList c.frontend c.backend :=
    isRecord_render (by decide) (c.frontend.isText_render 1) (c.backend.isText_render 1)
  have ending : Spaces ['\n'] := by decide
  have whole : c.fileText.toList = [] ++ ((c.toJson.render 0).toList ++ ['\n']) := by
    simp [fileText, pretty]
  rw [whole]
  exact .intro spaces_nil isRecord ending

theorem Config.ofBytes_fileText (c : Config) : ofBytes c.fileText.toUTF8 = .ok c :=
  ofBytes_isText c.isText_fileText

end RouteTags
