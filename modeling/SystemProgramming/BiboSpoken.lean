import SystemProgramming.BiboLeaks

/-!
# Every command is answered with some text

A reply of no bytes is not sent at all, and the client would wait for it. As
long as no file holds a NUL byte there is no such reply, and since the server
only writes texts that it received as strings, no file ever gets one.
-/

set_option autoImplicit false

namespace CSE344.BiboSpoken
open CString Stdio BiboServer BiboCommands BiboAlone BiboLeaks

/-- No file holds a NUL byte. -/
def Texts (files : Bytes → Option Bytes) : Prop :=
  ∀ path content, files path = some content → 0 ∉ content

/-- The files are texts and the array does not hold the empty string. -/
structure Spoken (s : State) : Prop where
  texts : Texts s.files
  sent : sent s ≠ some []

variable {cfg : Config} {openOk : Bool} {text args : Bytes} {s t : State}

theorem Texts.put {files : Bytes → Option Bytes} (h : Texts files) (path : Bytes) {content : Bytes}
    (h0 : 0 ∉ content) : Texts (Function.update files path (some content)) := by
  intro p c hc
  by_cases hp : p = path
  · subst hp
    rw [Function.update_self, Option.some.injEq] at hc
    exact hc ▸ h0
  · rw [Function.update_of_ne hp] at hc
    exact h p c hc

theorem fgetsAll_pieces (content : Bytes) : ∀ l ∈ fgetsAll lineSize content, l ≠ [] := by
  induction hlen : content.length using Nat.strong_induction_on generalizing content with
  | _ n ih =>
    cases h : fgets lineSize content with
    | none => simp [fgetsAll_none h]
    | some p =>
      obtain ⟨line, rest⟩ := p
      have hline := fgets_length (by decide) h
      have hsplit := congrArg List.length (fgets_append h)
      have hpos := List.length_pos_iff.mpr hline
      rw [List.length_append] at hsplit
      rw [fgetsAll_some (by decide) h]
      intro l hl
      rcases List.mem_cons.mp hl with rfl | hl
      · exact hline
      · exact ih rest.length (by omega) rest rfl l hl

theorem respond_spoken (hs : Texts s.files) (htext : cstr text ≠ [])
    (h : s.respond text = some t) : Spoken t := by
  obtain ⟨hfiles, hsent⟩ := respond_spec h
  refine ⟨hfiles ▸ hs, ?_⟩
  rw [BiboLeaks.sent, hsent, ne_eq, Option.some.injEq]
  exact htext

theorem appends_spoken {reply : Bytes} (texts : List Bytes) (hs : Texts s.files)
    (hreply : BiboLeaks.sent s = some reply) (hne : reply ≠ [])
    (h : texts.foldlM (fun (s : State) l => s.append l) s = some t) : Spoken t := by
  induction texts generalizing s reply with
  | nil =>
    obtain rfl : s = t := by simpa using h
    exact ⟨hs, by rw [hreply, ne_eq, Option.some.injEq]; exact hne⟩
  | cons l ls ih =>
    rw [List.foldlM_cons] at h
    obtain ⟨u, hu, hrest⟩ := Option.bind_eq_some_iff.mp h
    obtain ⟨hfiles, hsent⟩ := append_spec hu hreply
    exact ih (hfiles ▸ hs) hsent (by simp [hne]) hrest

theorem header_spoken {header : Bytes} (texts : List Bytes) (hs : Texts s.files)
    (hheader : cstr header ≠ [])
    (h : (s.respond header).bind (fun s => texts.foldlM (fun s l => s.append l) s) = some t) :
    Spoken t := by
  obtain ⟨u, hu, hrest⟩ := Option.bind_eq_some_iff.mp h
  obtain ⟨hfiles, hsent⟩ := respond_spec hu
  exact appends_spoken texts (hfiles ▸ hs) hsent hheader hrest

theorem notFound_spoken (line : ℤ) : cstr (notFound line) ≠ [] := by
  have hfirst : notFound line = 76 :: (ascii "ine " ++ ascii (toString line) ++
      ascii " not found") := by
    simp [notFound, ascii]
  rw [hfirst]
  exact List.cons_ne_nil _ _

theorem list_spoken (hs : Texts s.files) (h : list cfg s = some t) : Spoken t := by
  unfold list at h
  split at h
  · exact respond_spoken hs (by decide) h
  · simp only [BiboBounds.list_loop] at h
    exact header_spoken _ hs (by decide) h

theorem readF_spoken (hs : Texts s.files) (h : readF cfg args s = some t) : Spoken t := by
  unfold readF at h
  dsimp only at h
  split at h
  · exact respond_spoken hs (by decide) h
  · rename_i content hcontent
    have h0 := hs _ content hcontent
    rw [(BiboBounds.fgetsAll_noNul h0).1] at h
    split_ifs at h with hwhole hline
    · exact header_spoken _ hs (by decide) h
    · refine respond_spoken hs ?_ h
      have hlt : (fields args).lineNum.toNat-1 < (fgetsAll lineSize content).length := by omega
      rw [List.getD_eq_getElem?_getD, List.getElem?_eq_getElem hlt, Option.getD_some]
      have hmem := List.getElem_mem hlt
      rw [cstr_of_noNul ((BiboBounds.fgetsAll_noNul h0).2 _ hmem)]
      exact fgetsAll_pieces content _ hmem
    · exact respond_spoken hs (notFound_spoken _) h

theorem download_spoken (hs : Texts s.files) (h : download cfg args s = some t) : Spoken t := by
  unfold download at h
  split at h <;> exact respond_spoken hs (by decide) h

theorem upload_spoken (hs : Texts s.files) (h : upload cfg openOk args s = some t) :
    Spoken t := by
  unfold upload at h
  dsimp only at h
  split_ifs at h
  · exact respond_spoken (hs.put _ List.not_mem_nil) (by decide) h
  · exact respond_spoken hs (by decide) h

theorem nextToken_noNul {delims token rest : Bytes} {str : Bytes} (h0 : 0 ∉ str)
    (h : nextToken delims str = some (token, rest)) : 0 ∉ token ∧ 0 ∉ rest := by
  simp only [nextToken, Option.ite_none_left_eq_some, Option.some.injEq, Prod.mk.injEq] at h
  obtain ⟨-, rfl, rfl⟩ := h
  have hdrop : 0 ∉ str.dropWhile (· ∈ delims) :=
    fun hm => h0 ((List.dropWhile_sublist _).subset hm)
  exact ⟨fun hm => hdrop ((List.takeWhile_sublist _).subset hm),
    fun hm => hdrop ((List.dropWhile_sublist _).subset (List.mem_of_mem_tail hm))⟩

theorem text_noNul {str text : Bytes} (h0 : 0 ∉ str) (h : (fields str).text = some text) :
    0 ∉ text := by
  unfold fields at h
  split at h
  · cases h
  · rename_i filename rest hname
    split at h
    · cases h
    · rename_i line rest' hline
      obtain ⟨p, hp, rfl⟩ := Option.map_eq_some_iff.mp h
      exact (nextToken_noNul (nextToken_noNul (nextToken_noNul h0 hname).2 hline).2 hp).1

theorem replaced_noNul {line : ℤ} {text : Bytes} {ls new : List Bytes} (htext : 0 ∉ text)
    (hls : ∀ l ∈ ls, 0 ∉ l) (h : replaced line (some text) ls = some (some new)) :
    ∀ l ∈ new, 0 ∉ l := by
  simp only [replaced, Option.bind_some] at h
  split_ifs at h
  · cases h
  · obtain rfl := Option.some.inj (Option.some.inj h)
    intro l hl
    rcases List.mem_or_eq_of_mem_set hl with hl | rfl
    · exact hls l hl
    · exact htext

theorem rewritten_noNul {line : ℤ} {text : Option Bytes} {content new : Bytes}
    (hcontent : 0 ∉ content) (htext : ∀ x, text = some x → 0 ∉ x)
    (h : rewritten line text content = some (some new)) : 0 ∉ new := by
  obtain ⟨hrow, hpieces⟩ := BiboBounds.fgetsAll_noNul hcontent
  unfold rewritten at h
  split_ifs at h with hzero
  · obtain ⟨x, rfl, hx⟩ := Option.map_eq_some_iff.mp h
    cases hx
    simp [hcontent, htext x rfl]
  · rw [hrow] at h
    obtain ⟨r, hr, hnew⟩ := Option.map_eq_some_iff.mp h
    obtain ⟨ls, rfl, rfl⟩ := Option.map_eq_some_iff.mp hnew
    cases text with
    | none =>
      simp only [replaced, Option.bind_none] at hr
      split_ifs at hr
      cases hr
    | some x =>
      intro h0
      obtain ⟨l, hl, hl0⟩ := List.mem_flatten.mp h0
      exact replaced_noNul (htext x rfl) hpieces hr l hl hl0

theorem stored_texts (hs : Texts s.files) (hargs : 0 ∉ args) (h : stored cfg args s = some t) :
    Texts t.files := by
  have htext (x : Bytes) : (fields args).text = some x → 0 ∉ x := text_noNul hargs
  unfold stored at h
  split at h
  · obtain ⟨x, hx, rfl⟩ := Option.map_eq_some_iff.mp h
    exact hs.put _ (htext x hx)
  · rename_i content hcontent
    split at h
    · cases h
    · exact (respond_spec h).1 ▸ hs
    · rename_i new hnew
      cases h
      exact hs.put _ (rewritten_noNul (hs _ content hcontent) htext hnew)

theorem writeT_spoken (hs : Texts s.files) (hargs : 0 ∉ args)
    (h : writeT cfg openOk args s = some t) : Spoken t := by
  rw [writeT_eq] at h
  split_ifs at h
  obtain ⟨u, hu, hconfirm⟩ := Option.bind_eq_some_iff.mp h
  have htexts := stored_texts hs hargs hu
  unfold confirm at hconfirm
  split_ifs at hconfirm with hempty
  · exact respond_spoken htexts (by decide) hconfirm
  · cases hconfirm
    exact ⟨htexts, fun hsent => hempty (sent_head.mp hsent)⟩

theorem next_spoken {next : Next} {text : Bytes} (hs : Texts s.files) (htext : cstr text ≠ [])
    (h : (s.respond text).map (fun s => { s with next := next }) = some t) : Spoken t := by
  obtain ⟨u, hu, rfl⟩ := Option.map_eq_some_iff.mp h
  have := respond_spoken hs htext hu
  exact ⟨this.texts, this.sent⟩

theorem command_spoken (buffer : Bytes) (hs : Texts s.files)
    (h : command cfg openOk buffer s = some t) : Spoken t := by
  have hargs {p : ℕ} {args : Bytes} (ha : stringAt buffer p = some args) : 0 ∉ args := by
    simp only [stringAt, Option.ite_none_right_eq_some, Option.some.injEq] at ha
    rw [← ha.2]
    exact noNul_cstr _
  unfold command at h
  split_ifs at h
  · exact respond_spoken hs (by decide) h
  · exact list_spoken hs h
  · obtain ⟨args, -, h⟩ := Option.bind_eq_some_iff.mp h
    exact readF_spoken hs h
  · obtain ⟨args, ha, h⟩ := Option.bind_eq_some_iff.mp h
    exact writeT_spoken hs (hargs ha) h
  · obtain ⟨args, -, h⟩ := Option.bind_eq_some_iff.mp h
    exact upload_spoken hs h
  · obtain ⟨args, -, h⟩ := Option.bind_eq_some_iff.mp h
    exact download_spoken hs h
  · exact next_spoken hs (by decide) h
  · exact next_spoken hs (by decide) h
  · exact respond_spoken hs (by decide) h

/-- Over texts every command gets a reply of at least one byte, and the files stay texts. -/
theorem handle_spoken {block reply : Bytes} (hs : Texts s.files)
    (h : handle cfg openOk block s = some (t, reply)) : Texts t.files ∧ reply ≠ [] := by
  obtain ⟨u, hu, hreply⟩ := Option.bind_eq_some_iff.mp h
  obtain ⟨r, hr, heq⟩ := Option.map_eq_some_iff.mp hreply
  cases heq
  have hspoken := command_spoken (received block) hs hu
  exact ⟨hspoken.texts, fun hnil => hspoken.sent (by rw [← hnil]; exact hr)⟩

end CSE344.BiboSpoken
