import CpreLabs.ClientSessions

/-!
# Keys and values on the wire

When a `GET` is answered with a value, has some client put exactly this value under exactly
this key? The widths of the conversions decide: a token that is longer is cut, and what is cut
off becomes the next argument.
-/
namespace CpreLabs.HandleClient

open HashTable Scanf

variable {C : Type*} {numBuckets : ℕ+}

/-- The words behind the first three bytes, as far as the string functions see the line: for
them it ends at its first NUL. -/
def arguments (line : List UInt8) : List (List UInt8) :=
  words ((CString.ofBuffer line).bytes.drop 3)

/-- A value is answered only if a line put it, in whole tokens; and a line with a token over
the limit makes no call. -/
structure WireIntegrity (log : List (Exchange C numBuckets)) : Prop where
  answered : ∀ before e after key val, log = before ++ e :: after →
    words e.line = [ascii "GET", key] → e.reply = valueReply val →
    ∃ d ∈ before, d.reply = respOk ∧ ∃ later, words d.line = ascii "PUT" :: key :: val :: later
  key : ∀ e ∈ log, ∀ word ∈ [ascii "GET", ascii "PUT", ascii "DEL"], ∀ key later,
    words e.line = word :: key :: later → maxKeyLen < key.length → e.command.call = none
  value : ∀ e ∈ log, ∀ key val later, words e.line = ascii "PUT" :: key :: val :: later →
    maxValLen < val.length → e.command.call = none

/-- Nothing goes wrong with this line. It has no argument that is read, or its arguments are
whole tokens within the limit. -/
structure Clean (line : List UInt8) : Prop where
  get : ascii "GET" <+: line → ∀ key later, words line = ascii "GET" :: key :: later →
    arguments line = [] ∨
      key.length ≤ maxKeyLen ∧ (later = [] → arguments line = [key])
  del : ascii "DEL" <+: line → ∀ key later, words line = ascii "DEL" :: key :: later →
    arguments line = [] ∨ key.length ≤ maxKeyLen
  put : ascii "PUT" <+: line → TooFew (arguments line) ∨ ∃ key val later later',
    words line = ascii "PUT" :: key :: val :: later ∧ arguments line = key :: val :: later' ∧
      key.length ≤ maxKeyLen ∧ val.length ≤ maxValLen

theorem respond_value {command : Command} {now : ℕ} {table : HashTable numBuckets}
    {val : List UInt8} (h : (respond command now table).1 = valueReply val) :
    ∃ key s, command = .get key ∧ table.contents key = some s ∧ s.value.str.bytes = val := by
  have hhead : (respond command now table).1.head? = some 86 := by rw [h]; rfl
  cases command with
  | get key =>
    simp only [respond] at h
    split at h
    · rename_i out t hget
      obtain ⟨s, hs, rfl⟩ := kvGet_found (congrArg Prod.fst hget)
      exact ⟨key, s, rfl, hs, List.append_cancel_left (List.append_cancel_right h)⟩
    · cases congrArg List.head? h
  | del key =>
    simp only [respond] at hhead
    split at hhead
    · cases hhead
    · cases hhead
  | _ => cases hhead

theorem TooFew.no_fields {words : List (List UInt8)} (h : TooFew words) {key val : List UInt8}
    {later later' : List (List UInt8)} (hkey : words = key :: later)
    (hval : afterField maxKeyLen key later = val :: later') : False := by
  rcases h with h | ⟨word, h, hlen⟩
  · rw [h] at hkey
    cases hkey
  · rw [h] at hkey
    cases hkey
    rw [afterField, if_pos hlen] at hval
    cases hval

theorem bytes_ofBuffer_argument {line word : List UInt8} (h : word ∈ arguments line) :
    (CString.ofBuffer word).bytes = word := by
  refine CString.bytes_ofBuffer fun b hb => ?_
  exact (CString.ofBuffer line).noNul b (List.mem_of_mem_drop ((of_mem_words h).2 b hb))

theorem Clean.get_key {line : List UInt8} (h : Clean line) {token : List UInt8}
    (hw : words line = [ascii "GET", token]) {key : CString}
    (hc : parseLine (.ofBuffer line) = .get key) : key.bytes = token := by
  have hs := recognized_parseLine (.ofBuffer line)
  rw [hc] at hs
  cases hs with
  | @get word later hget hargs =>
    rw [prefix_ofBuffer_iff (by decide)] at hget
    rcases h.get hget token [] hw with hnil | ⟨hlen, hone⟩
    · rw [arguments, hargs] at hnil
      cases hnil
    · have hargs' := hone rfl
      have htoken : (CString.ofBuffer token).bytes = token :=
        bytes_ofBuffer_argument (show token ∈ arguments line by simp [hargs'])
      rw [arguments, hargs] at hargs'
      cases hargs'
      rw [List.take_of_length_le hlen, htoken]

theorem Clean.put_key_val {line : List UInt8} (h : Clean line) {key val : CString} {ttl : ℤ}
    (hc : parseLine (.ofBuffer line) = .put key val ttl) :
    val.length ≤ maxValLen ∧
      ∃ later, words line = ascii "PUT" :: key.bytes :: val.bytes :: later := by
  have hs := recognized_parseLine (.ofBuffer line)
  rw [hc] at hs
  cases hs with
  | @put word later word' later' rest hput hargs hval _ =>
    rw [prefix_ofBuffer_iff (by decide)] at hput
    rcases h.put hput with hfew | ⟨k, v, more, more', hw, hargs', hk, hv⟩
    · exact (hfew.no_fields hargs hval).elim
    · have hkey : (CString.ofBuffer k).bytes = k :=
        bytes_ofBuffer_argument (show k ∈ arguments line by simp [hargs'])
      have hvalue : (CString.ofBuffer v).bytes = v :=
        bytes_ofBuffer_argument (show v ∈ arguments line by simp [hargs'])
      rw [arguments, hargs] at hargs'
      cases hargs'
      rw [afterField, if_pos hk] at hval
      cases hval
      rw [List.take_of_length_le hk, List.take_of_length_le hv, hkey, hvalue]
      exact ⟨by rw [CString.length, hvalue]; exact hv, more, hw⟩

theorem command_word {word : List UInt8} (h : word ∈ [ascii "GET", ascii "PUT", ascii "DEL"]) :
    word.length = 3 ∧ 0 ∉ word ∧ IsWord word := by
  revert word
  decide

theorem Clean.no_call {line : List UInt8} (h : Clean line) {word key : List UInt8}
    {later : List (List UInt8)} (hword : word ∈ [ascii "GET", ascii "PUT", ascii "DEL"])
    (hw : words line = word :: key :: later)
    (hlong : maxKeyLen < key.length ∨
      word = ascii "PUT" ∧ ∃ val more, later = val :: more ∧ maxValLen < val.length) :
    (parseLine (.ofBuffer line)).call = none := by
  -- A line that starts with a command word has no other one as its first token.
  have hfirst : ∀ w ∈ [ascii "GET", ascii "PUT", ascii "DEL"],
      w <+: (CString.ofBuffer line).bytes → w = word := by
    intro w hmem hpre
    obtain ⟨hlen, hnul, hspace⟩ := command_word hmem
    have hle := prefix_first_word hspace ((prefix_ofBuffer_iff hnul).mp hpre) hw
    exact hle.eq_of_length (hlen.trans (command_word hword).1.symm)
  have hs := recognized_parseLine (.ofBuffer line)
  generalize parseLine (.ofBuffer line) = command at hs
  cases hs with
  | get hget hargs =>
    obtain rfl := hfirst _ (by simp) hget
    rcases h.get ((prefix_ofBuffer_iff (by decide)).mp hget) key later hw with hnil | ⟨hkey, -⟩
    · rw [arguments, hargs] at hnil
      cases hnil
    · rcases hlong with hlong | ⟨hput, -⟩
      · omega
      · exact absurd hput (by decide)
  | del hdel hargs =>
    obtain rfl := hfirst _ (by simp) hdel
    rcases h.del ((prefix_ofBuffer_iff (by decide)).mp hdel) key later hw with hnil | hkey
    · rw [arguments, hargs] at hnil
      cases hnil
    · rcases hlong with hlong | ⟨hput, -⟩
      · omega
      · exact absurd hput (by decide)
  | put hput hargs hval =>
    rcases h.put ((prefix_ofBuffer_iff (by decide)).mp hput) with
      hfew | ⟨k, v, more, more', hw', -, hk, hv⟩
    · exact (hfew.no_fields hargs hval).elim
    · rw [hw] at hw'
      cases hw'
      rcases hlong with hlong | ⟨-, val, _, hlater, hlong⟩
      · omega
      · cases hlater
        omega
  | _ => rfl

/-- Whatever the clients send and however the passes for them interleave: while every line read
is clean, a value is answered only for the key it was put under, and as it was put. -/
theorem wireIntegrity_of_clean [DecidableEq C] (streams : C → List UInt8)
    (events : List (Event C))
    (hclean : ∀ e ∈ (serve events (start (kvInit numBuckets) streams)).log, Clean e.line) :
    WireIntegrity (serve events (start (kvInit numBuckets) streams)).log := by
  have hist := history_serve (kvInit numBuckets) streams events
  refine ⟨?_, ?_, ?_⟩
  · intro before e after token val hlog hw hvalue
    rw [hlog] at hist hclean
    obtain ⟨hbefore, hreply⟩ := hist.before
    obtain ⟨key, s, hcommand, hs, rfl⟩ := respond_value (hreply.symm.trans hvalue)
    obtain rfl := (hclean e (by simp)).get_key hw hcommand
    rcases hbefore.contents_cases wellPlaced_kvInit hs with h | ⟨d, hd, v, ttl, hput, hv⟩
    · cases h
    · obtain ⟨hfits, later, hwords⟩ := (hclean d (by simp [hd])).put_key_val hput
      refine ⟨d, hd, ?_, later, ?_⟩
      · rw [hbefore.reply_eq hd, hput]
        rfl
      · rw [hwords, hv, CharArray.str_strncpy hfits]
  · intro e he word hword key later hw hlong
    exact (hclean e he).no_call hword hw (.inl hlong)
  · intro e he key val later hw hlong
    exact (hclean e he).no_call (by simp) hw (.inr ⟨rfl, val, later, rfl, hlong⟩)

theorem wireIntegrity_of_two_clients :
    (serve [.pass true 0, .pass false 0] (start (kvInit 1) fun client =>
      if client then ascii "PUT a b\n" else ascii "GET a\n")).written false =
        ascii "VALUE b\n" ∧
      WireIntegrity (serve [.pass true 0, .pass false 0] (start (kvInit 1) fun client =>
        if client then ascii "PUT a b\n" else ascii "GET a\n")).log := by
  refine ⟨by decide +kernel, wireIntegrity_of_clean _ _ fun e he => ?_⟩
  have hlines : e.line ∈ [ascii "PUT a b\n", ascii "GET a\n"] := List.mem_map_of_mem he
  rcases List.mem_cons.mp hlines with h | h
  · rw [h]
    refine ⟨fun h => absurd h (by decide), fun h => absurd h (by decide), fun _ => .inr ?_⟩
    exact ⟨ascii "a", ascii "b", [], [], by decide, by decide, by decide, by decide⟩
  · rw [List.mem_singleton.mp h]
    refine ⟨fun _ key later hw => ?_, fun h => absurd h (by decide), fun h => absurd h (by decide)⟩
    rw [show words (ascii "GET a\n") = [ascii "GET", ascii "a"] by decide] at hw
    cases hw
    exact .inr ⟨by decide, fun _ => by decide⟩

/-- A `PUT` whose only argument is one byte over the limit, then a `GET` of all but that byte. -/
def longKeyStream : List UInt8 :=
  ascii "PUT " ++ List.replicate 257 97 ++ [newline] ++
    (ascii "GET " ++ List.replicate 256 97 ++ [newline])

/-- The last byte of the key is stored as a value, and a `GET` with a different key finds it. -/
theorem not_wireIntegrity_of_long_key :
    ¬ ∀ (streams : Unit → List UInt8) (events : List (Event Unit)),
      (∀ client, ∀ line ∈ LineFraming.lines (· == newline) (streams client), line.length ≤ 575) →
        WireIntegrity (serve events (start (kvInit 1) streams)).log := by
  intro h
  have hint := h (fun _ => longKeyStream) [.pass () 0, .pass () 0] fun _ => by decide +kernel
  have hlog : (serve [.pass () 0, .pass () 0]
      (start (kvInit 1) fun _ => longKeyStream)).log.map (fun e => (words e.line, e.reply)) =
        [([ascii "PUT", List.replicate 257 97], respOk),
          ([ascii "GET", List.replicate 256 97], valueReply [97])] := by decide +kernel
  generalize (serve [.pass () 0, .pass () 0] (start (kvInit 1) fun _ => longKeyStream)).log = log
    at hint hlog
  obtain ⟨put, rest, rfl, hput, hrest⟩ := List.map_eq_cons_iff.mp hlog
  obtain ⟨get, rest, rfl, hget, -⟩ := List.map_eq_cons_iff.mp hrest
  obtain ⟨d, hd, -, later, hwords⟩ := hint.answered [put] get rest _ _ rfl
    (congrArg Prod.fst hget) (congrArg Prod.snd hget)
  obtain rfl := List.mem_singleton.mp hd
  rw [show words d.line = _ from congrArg Prod.fst hput] at hwords
  have htoken := (List.cons.inj (List.cons.inj hwords).2).1
  have hlen := congrArg List.length htoken
  rw [List.length_replicate, List.length_replicate] at hlen
  omega

end CpreLabs.HandleClient
