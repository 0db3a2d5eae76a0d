import ArithTree.Proofs.DigitRuns
import ArithTree.Request

/-! What is typed into a dialogue. Bytes that are UTF-8 and end with a line feed are lines, each a
text and its end, and such lines are found again one by one, whatever bytes come after them. Main
statement: what is printed over lines that do not quit is one prompt and one answer a line, decided
by the text of that line alone, and then what is printed over the bytes behind them as if they came
first; a line that quits ends it with a prompt. -/

namespace ArithTree.Dialogue

/-! ### Bytes of a text -/

/-- The bytes of a text in UTF-8. -/
def utf8 (s : String) : List UInt8 := s.toList.flatMap String.utf8EncodeChar

theorem utf8_append (s t : String) : utf8 (s ++ t) = utf8 s ++ utf8 t := by
  rw [utf8, String.toList_append, List.flatMap_append]
  rfl

theorem toByteArray_utf8 (s : String) : (utf8 s).toByteArray = s.toByteArray := by
  rw [← String.utf8Encode_toList]
  rfl

theorem fromUTF8?_utf8 (s : String) : String.fromUTF8? (utf8 s).toByteArray = some s := by
  have hvalid : (utf8 s).toByteArray.IsValidUTF8 := toByteArray_utf8 s ▸ s.isValidUTF8
  rw [String.fromUTF8?, dif_pos hvalid, Option.some.injEq, ← String.toByteArray_inj]
  exact toByteArray_utf8 s

theorem exists_utf8_of_isValidUTF8 {bytes : List UInt8} (h : bytes.toByteArray.IsValidUTF8) :
    ∃ s, utf8 s = bytes := by
  obtain ⟨cs, hcs⟩ := h
  refine ⟨String.ofList cs, List.toByteArray_inj.1 ?_⟩
  rw [hcs, utf8, String.toList_ofList]
  rfl

/-- A byte below 128 is the whole of the character that it is a byte of. -/
theorem toNat_eq_of_mem_utf8EncodeChar {c : Char} {b : UInt8} (h : b ∈ String.utf8EncodeChar c)
    (hb : b.toNat < 128) : c.toNat = b.toNat := by
  rw [String.utf8EncodeChar.eq_1] at h
  split at h
  · rw [List.mem_singleton] at h
    rw [h, UInt8.toNat_ofNat', Nat.mod_eq_of_lt (by omega)]
    rfl
  · -- the bytes of a longer character are 128 or more
    split at h
    · simp only [List.mem_cons, List.not_mem_nil, or_false] at h
      rcases h with rfl | rfl <;> (rw [UInt8.toNat_ofNat'] at hb; omega)
    · split at h
      · simp only [List.mem_cons, List.not_mem_nil, or_false] at h
        rcases h with rfl | rfl | rfl <;> (rw [UInt8.toNat_ofNat'] at hb; omega)
      · simp only [List.mem_cons, List.not_mem_nil, or_false] at h
        rcases h with rfl | rfl | rfl | rfl <;> (rw [UInt8.toNat_ofNat'] at hb; omega)

theorem eq_lineFeed_of_mem {c : Char} (h : lineFeed ∈ String.utf8EncodeChar c) : c = '\n' :=
  Char.toNat_inj.1 (toNat_eq_of_mem_utf8EncodeChar h (by decide))

theorem eq_carriageReturn_of_mem {c : Char} (h : carriageReturn ∈ String.utf8EncodeChar c) :
    c = '\r' :=
  Char.toNat_inj.1 (toNat_eq_of_mem_utf8EncodeChar h (by decide))

theorem lineFeed_not_mem_utf8 {s : String} (h : '\n' ∉ s.toList) : lineFeed ∉ utf8 s := by
  intro hmem
  obtain ⟨c, hc, hbyte⟩ := List.mem_flatMap.1 hmem
  exact h (eq_lineFeed_of_mem hbyte ▸ hc)

/-- The last byte is one of the last character. -/
theorem exists_of_getLast?_utf8 {s : String} {b : UInt8} (h : (utf8 s).getLast? = some b) :
    ∃ c, s.toList.getLast? = some c ∧ b ∈ String.utf8EncodeChar c := by
  rcases List.eq_nil_or_concat s.toList with hnil | ⟨before, c, hconcat⟩
  · simp [utf8, hnil] at h
  · rw [List.concat_eq_append] at hconcat
    rw [utf8, hconcat, List.flatMap_append, List.flatMap_singleton,
      List.getLast?_append_of_ne_nil _ String.utf8EncodeChar_ne_nil] at h
    exact ⟨c, by rw [hconcat, List.getLast?_concat], List.mem_of_getLast? h⟩

theorem getLast?_utf8_ne {s : String} (h : s.toList.getLast? ≠ some '\r') :
    (utf8 s).getLast? ≠ some carriageReturn := by
  intro hlast
  obtain ⟨c, hc, hbyte⟩ := exists_of_getLast?_utf8 hlast
  exact h (eq_carriageReturn_of_mem hbyte ▸ hc)

/-! ### Lines -/

/-- How a line ends. -/
inductive Ending where
  | lineFeed
  | carriageReturnLineFeed

def Ending.text : Ending → String
  | lineFeed => "\n"
  | carriageReturnLineFeed => "\r\n"

/-- A text and the end of its line. The text has no line feed, and a carriage return right before
the line feed belongs to the end. -/
structure TypedLine where
  text : String
  ending : Ending
  no_lineFeed : '\n' ∉ text.toList
  no_carriageReturn : ending = .lineFeed → text.toList.getLast? ≠ some '\r'

namespace TypedLine

def bytes (line : TypedLine) : List UInt8 := utf8 (line.text ++ line.ending.text)

/-- The bytes before the line feed. -/
theorem exists_bytes_eq (line : TypedLine) :
    ∃ body, line.bytes = body ++ [Dialogue.lineFeed] ∧ Dialogue.lineFeed ∉ body := by
  have htext := lineFeed_not_mem_utf8 line.no_lineFeed
  rw [bytes, utf8_append]
  cases line.ending with
  | lineFeed => exact ⟨utf8 line.text, rfl, htext⟩
  | carriageReturnLineFeed =>
    refine ⟨utf8 line.text ++ [carriageReturn], ?_, ?_⟩
    · rw [List.append_assoc]
      rfl
    · simpa [htext] using by decide

end TypedLine

/-- A line feed ends the first line, and the lines behind it are cut without regard to it. -/
theorem lines_append_cons {body : List UInt8} (h : lineFeed ∉ body) (rest : List UInt8) :
    lines (body ++ lineFeed :: rest) = (body ++ [lineFeed]) :: lines rest := by
  have hchain : (body ++ [lineFeed]).IsChain fun b _ => (b != lineFeed) = true := by
    have hbody : ∀ b ∈ body, (b != lineFeed) = true := by
      intro b hb
      simpa using ne_of_mem_of_not_mem hb h
    refine List.Pairwise.isChain (List.pairwise_append.2 ⟨?_, List.pairwise_singleton _ _, ?_⟩)
    · exact List.pairwise_of_forall_mem_list fun b hb _ _ => hbody b hb
    · exact fun b hb _ _ => hbody b hb
  have hseam : ∀ b ∈ (body ++ [lineFeed]).getLast?, ∀ b' ∈ rest.head?, (b != lineFeed) = false := by
    simp
  have hsplit : body ++ lineFeed :: rest = (body ++ [lineFeed]) ++ rest := by simp
  rw [lines, hsplit, List.splitBy_append hseam, List.splitBy_of_isChain (by simp) hchain]
  rfl

namespace TypedLine

theorem lines_bytes_append (line : TypedLine) (rest : List UInt8) :
    lines (line.bytes ++ rest) = line.bytes :: lines rest := by
  obtain ⟨body, hbytes, hbody⟩ := line.exists_bytes_eq
  rw [hbytes, List.append_assoc, List.singleton_append, lines_append_cons hbody]

theorem withoutEnd_bytes (line : TypedLine) : withoutEnd line.bytes = utf8 line.text := by
  rw [bytes, utf8_append]
  cases hending : line.ending with
  | lineFeed =>
    have hhead : (utf8 line.text).reverse.head? ≠ some carriageReturn := by
      rw [List.head?_reverse]
      exact getLast?_utf8_ne (line.no_carriageReturn hending)
    have hreverse : (utf8 line.text ++ utf8 Ending.lineFeed.text).reverse =
        Dialogue.lineFeed :: (utf8 line.text).reverse := List.reverse_append
    rw [withoutEnd, hreverse]
    simp only [if_pos, if_neg hhead, List.reverse_reverse]
  | carriageReturnLineFeed =>
    have hreverse : (utf8 line.text ++ utf8 Ending.carriageReturnLineFeed.text).reverse =
        Dialogue.lineFeed :: carriageReturn :: (utf8 line.text).reverse := List.reverse_append
    rw [withoutEnd, hreverse]
    simp only [if_pos, List.head?_cons, List.tail_cons, List.reverse_reverse]

theorem answer?_bytes (line : TypedLine) : answer? line.bytes = reply? line.text := by
  rw [answer?, decode?, withoutEnd_bytes, fromUTF8?_utf8]
  rfl

end TypedLine

/-! ### Bytes that are lines -/

theorem TypedLine.exists_of_text {s : String} (h : '\n' ∉ s.toList) :
    ∃ line : TypedLine, line.bytes = utf8 (s ++ "\n") := by
  by_cases hlast : s.toList.getLast? = some '\r'
  · obtain ⟨before, hbefore⟩ := List.getLast?_eq_some_iff.1 hlast
    have hs : s = String.ofList before ++ "\r" := by
      rw [← String.toList_inj, hbefore, String.toList_append, String.toList_ofList]
      rfl
    have hnot : '\n' ∉ (String.ofList before).toList := by
      rw [String.toList_ofList]
      exact fun hmem => h (hbefore ▸ List.mem_append_left _ hmem)
    have hbytes : utf8 (String.ofList before ++ "\r\n") = utf8 (s ++ "\n") := by
      rw [hs, String.append_assoc]
      rfl
    exact ⟨⟨String.ofList before, .carriageReturnLineFeed, hnot, by simp⟩, hbytes⟩
  · exact ⟨⟨s, .lineFeed, h, fun _ => hlast⟩, rfl⟩

theorem exists_typedLines_of_text (s : String) (h : ∀ c ∈ s.toList.getLast?, c = '\n') :
    ∃ typed : List TypedLine, typed.flatMap TypedLine.bytes = utf8 s := by
  obtain ⟨cs, rfl⟩ : ∃ cs, s = String.ofList cs := ⟨s.toList, s.ofList_toList.symm⟩
  rw [String.toList_ofList] at h
  induction cs using Text.separated_induction (· == '\n') with
  | free cs hfree =>
    -- the last character would be a line feed
    have hnil : cs = [] := by
      rcases List.eq_nil_or_concat cs with hnil | ⟨before, c, hconcat⟩
      · exact hnil
      · rw [List.concat_eq_append] at hconcat
        have hc : c = '\n' := h c (by simp [hconcat])
        simpa [hc] using hfree c (by simp [hconcat])
    exact ⟨[], by rw [hnil]; rfl⟩
  | separated before c after hbefore hc ih =>
    obtain rfl : c = '\n' := by simpa using hc
    obtain ⟨line, hline⟩ := TypedLine.exists_of_text (s := String.ofList before) fun hmem => by
      simpa using hbefore '\n' (by simpa using hmem)
    obtain ⟨typed, htyped⟩ := ih fun c hc => h c (by
      rw [Option.mem_def] at hc ⊢
      have hafter : after ≠ [] := fun hnil => by simp [hnil] at hc
      rw [List.append_cons, List.getLast?_append_of_ne_nil _ hafter, hc])
    refine ⟨line :: typed, ?_⟩
    rw [List.flatMap_cons, hline, htyped, ← utf8_append]
    congr 1
    simp [← String.toList_inj]

theorem exists_typedLines {bytes : List UInt8} (hvalid : bytes.toByteArray.IsValidUTF8)
    (hend : ∀ b ∈ bytes.getLast?, b = lineFeed) :
    ∃ typed : List TypedLine, typed.flatMap TypedLine.bytes = bytes := by
  obtain ⟨s, rfl⟩ := exists_utf8_of_isValidUTF8 hvalid
  refine exists_typedLines_of_text s ?_
  cases hlast : (utf8 s).getLast? with
  | none =>
    have hs : s.toList = [] := List.eq_nil_iff_forall_not_mem.2 (by simpa [utf8] using hlast)
    simp [hs]
  | some b =>
    obtain ⟨c, hc, hbyte⟩ := exists_of_getLast?_utf8 hlast
    have hfeed : b = lineFeed := hend b hlast
    have hnewline : c = '\n' := eq_lineFeed_of_mem (hfeed ▸ hbyte)
    simp [hc, hnewline]

/-! ### Transcripts -/

/-- Answers as they are printed, each after a prompt. -/
def prompted (answers : List String) : String := String.join (answers.map (prompt ++ ·))

@[simp]
theorem prompted_nil : prompted [] = "" := rfl

theorem prompted_cons (answer : String) (answers : List String) :
    prompted (answer :: answers) = prompt ++ answer ++ prompted answers := by
  simp [prompted]

/-- A dialogue goes on up to the first line without an answer. -/
theorem exists_transcriptOf_eq (read : List (List UInt8)) :
    ∃ answered stopped answers, read = answered ++ stopped ∧
      answered.map answer? = answers.map some ∧ (∀ line ∈ stopped.head?, answer? line = none) ∧
      transcriptOf read = prompted answers ++ prompt := by
  induction read with
  | nil => exact ⟨[], [], [], rfl, rfl, by simp, rfl⟩
  | cons line read ih =>
    cases hline : answer? line with
    | none =>
      refine ⟨[], line :: read, [], rfl, rfl, by simpa using hline, ?_⟩
      rw [transcriptOf, hline]
      rfl
    | some answer =>
      obtain ⟨answered, stopped, answers, rfl, hanswers, hstopped, htext⟩ := ih
      refine ⟨line :: answered, stopped, answer :: answers, rfl, ?_, hstopped, ?_⟩
      · rw [List.map_cons, List.map_cons, hline, hanswers]
      · rw [transcriptOf, hline, prompted_cons, String.append_assoc, ← htext]

theorem reply?_eq_none_iff {text : String} : reply? text = none ↔ text = "q" := by
  unfold reply?
  split
  · next h => simp [h]
  · split <;> simp [*]

theorem exists_answers {typed : List TypedLine} (h : ∀ line ∈ typed, line.text ≠ "q") :
    ∃ answers : List String, typed.map (fun line => reply? line.text) = answers.map some := by
  induction typed with
  | nil => exact ⟨[], rfl⟩
  | cons line typed ih =>
    obtain ⟨hline, htyped⟩ := List.forall_mem_cons.1 h
    obtain ⟨answers, hanswers⟩ := ih htyped
    obtain ⟨answer, hanswer⟩ := Option.ne_none_iff_exists'.1 fun hnone =>
      hline (reply?_eq_none_iff.1 hnone)
    exact ⟨answer :: answers, by rw [List.map_cons, List.map_cons, hanswer, hanswers]⟩

theorem transcript_bytes_append {line : TypedLine} {answer : String}
    (h : reply? line.text = some answer) (rest : List UInt8) :
    transcript (line.bytes ++ rest) = prompt ++ answer ++ transcript rest := by
  rw [transcript, line.lines_bytes_append, transcriptOf, line.answer?_bytes, h]
  rfl

theorem transcript_bytes_append_of_quit {line : TypedLine} (h : line.text = "q")
    (rest : List UInt8) : transcript (line.bytes ++ rest) = prompt := by
  rw [transcript, line.lines_bytes_append, transcriptOf, line.answer?_bytes,
    reply?_eq_none_iff.2 h]

/-- Lines that are answered leave the rest of the dialogue as it is without them. -/
theorem transcript_flatMap_append {typed : List TypedLine} {answers : List String}
    (h : typed.map (fun line => reply? line.text) = answers.map some) (rest : List UInt8) :
    transcript (typed.flatMap TypedLine.bytes ++ rest) = prompted answers ++ transcript rest := by
  induction typed generalizing answers with
  | nil =>
    obtain rfl : answers = [] := List.map_eq_nil_iff.1 h.symm
    simp
  | cons line typed ih =>
    cases answers with
    | nil => cases h
    | cons answer answers =>
      obtain ⟨hline, htyped⟩ := List.cons.inj h
      rw [List.flatMap_cons, List.append_assoc, transcript_bytes_append hline, ih htyped,
        prompted_cons]
      exact String.append_assoc.symm

/-- What the command prints, given its arguments and all of its input. -/
def printed (arguments : List String) (bytes : List UInt8) : String :=
  (Request.ofArguments arguments).output bytes

theorem printed_eq_transcript {arguments : List String} (h : arguments = [] ∨ arguments = ["--"])
    (bytes : List UInt8) : printed arguments bytes = transcript bytes := by
  rcases h with rfl | rfl <;> rfl

/-- Without words, over any stream, one prompt is printed for each line that is answered and one for
the line that is not, or for the end of the stream. UTF-8 that ends with a line feed is typed lines.
If none of these quits, what follows them is read as if it came first; a line that quits after them
ends the dialogue, whichever way the lines end. -/
theorem printed_over_typedLines {arguments : List String}
    (hwords : arguments = [] ∨ arguments = ["--"]) :
    (∀ bytes, ∃ answered stopped answers, lines bytes = answered ++ stopped ∧
      answered.map answer? = answers.map some ∧ (∀ line ∈ stopped.head?, answer? line = none) ∧
      printed arguments bytes = prompted answers ++ prompt) ∧
    (∀ bytes : List UInt8, bytes.toByteArray.IsValidUTF8 →
      (∀ b ∈ bytes.getLast?, b = lineFeed) →
      ∃ typed : List TypedLine, typed.flatMap TypedLine.bytes = bytes) ∧
    ∀ typed : List TypedLine, (∀ line ∈ typed, line.text ≠ "q") →
      ∃ answers, typed.map (fun line => reply? line.text) = answers.map some ∧
        printed arguments (typed.flatMap TypedLine.bytes) = prompted answers ++ prompt ∧
        ∀ rest,
          printed arguments (typed.flatMap TypedLine.bytes ++ rest) =
            prompted answers ++ printed arguments rest ∧
          ∀ last : TypedLine, last.text = "q" →
            printed arguments (typed.flatMap TypedLine.bytes ++ last.bytes ++ rest) =
              printed arguments (typed.flatMap TypedLine.bytes) := by
  simp only [printed_eq_transcript hwords]
  refine ⟨fun bytes => exists_transcriptOf_eq (lines bytes), fun bytes => exists_typedLines,
    fun typed htyped => ?_⟩
  obtain ⟨answers, hanswers⟩ := exists_answers htyped
  have hrest := transcript_flatMap_append hanswers
  have hend : transcript (typed.flatMap TypedLine.bytes) = prompted answers ++ prompt := by
    have hnil := hrest []
    rwa [List.append_nil] at hnil
  refine ⟨answers, hanswers, hend, fun rest => ⟨hrest rest, fun last hlast => ?_⟩⟩
  rw [List.append_assoc, hrest, transcript_bytes_append_of_quit hlast, hend]

/-- A sum and a call for details, and behind the line that quits a byte that is no UTF-8. -/
theorem printed_over_typedLines_then_quit :
    let sum : TypedLine := ⟨"1+1", .carriageReturnLineFeed, by decide, by simp⟩
    let help : TypedLine := ⟨"d", .lineFeed, by decide, by simp⟩
    let quit : TypedLine := ⟨"q", .carriageReturnLineFeed, by decide, by simp⟩
    (∃ typed : List TypedLine, typed.flatMap TypedLine.bytes = utf8 "1+1\r\nd\n") ∧
      printed ["--"] ([sum, help].flatMap TypedLine.bytes ++ quit.bytes ++ [255]) =
        prompted ["\n" ++ Report.text "1+1" ++ "\n\n", "\n" ++ details ++ "\n\n"] ++ prompt := by
  intro sum help quit
  have hwords : ["--"] = [] ∨ ["--"] = ["--"] := Or.inr rfl
  obtain ⟨-, hlines, htyped⟩ := printed_over_typedLines hwords
  obtain ⟨answers, hanswers, hend, hrest⟩ := htyped [sum, help] (by decide)
  have hvalid : (utf8 "1+1\r\nd\n").toByteArray.IsValidUTF8 :=
    toByteArray_utf8 _ ▸ String.isValidUTF8 _
  refine ⟨hlines _ hvalid (by decide +kernel), ?_⟩
  have htexts : answers = ["\n" ++ Report.text "1+1" ++ "\n\n", "\n" ++ details ++ "\n\n"] :=
    List.map_injective_iff.2 (fun _ _ => Option.some.inj) hanswers.symm
  rw [(hrest [255]).2 quit rfl, hend, htexts]

end ArithTree.Dialogue
