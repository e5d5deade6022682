import CodeTint.Proofs.Clipping
import CodeTint.Proofs.OrderedGrammar
import CodeTint.Proofs.Utf8
import CodeTint.Scan.Attribute

/-!
# Attributes are nested

An attribute is two opening brackets, then attributes and characters at which no pair of brackets
begins as long as there are any, then two closing brackets. The scanner reads no attribute inside
another one but counts how many are open. It stops where the grammar does, and where the grammar
fails it takes the rest of the text. Followed byte by byte, the number of open attributes always
fits a counter of 32 bits.
-/

namespace CodeTint.Scan.Attribute

open Grammar Text

/-- The brackets that open an attribute. -/
def opener : Text :=
  ['[', '[']

/-- The brackets that close an attribute. -/
def closer : Text :=
  [']', ']']

/-- What may stand inside an attribute: another one, or a character at which no pair of brackets
begins. -/
def item : Expression :=
  .orElse .recur (.inTurn (.absent (.orElse (.literal opener) (.literal closer))) .anyChar)

/-- What follows the opening brackets of an attribute. -/
def body : Expression :=
  .inTurn (.many item) (.literal closer)

/-- An attribute. -/
def grammar : Expression :=
  .inTurn (.literal opener) body

/-- Opening brackets are no closing brackets. -/
theorem opener_not_closer (rest : Text) : ¬ closer <+: opener ++ rest := by
  rintro ⟨behind, hbehind⟩
  cases hbehind

/-- Closing brackets are no opening brackets. -/
theorem closer_not_opener (rest : Text) : ¬ opener <+: closer ++ rest := by
  rintro ⟨behind, hbehind⟩
  cases hbehind

/-- A character that the scan takes alone does not begin opening brackets. -/
theorem alone_not_opener {c : Char} {rest : Text}
    (h : ∀ behind, c = '[' → rest = '[' :: behind → False) : ¬ opener <+: c :: rest := by
  rintro ⟨behind, hbehind⟩
  have hcons := List.cons.inj hbehind
  exact h behind hcons.1.symm hcons.2.symm

/-- A character that the scan takes alone does not begin closing brackets. -/
theorem alone_not_closer {c : Char} {rest : Text}
    (h : ∀ behind, c = ']' → rest = ']' :: behind → False) : ¬ closer <+: c :: rest := by
  rintro ⟨behind, hbehind⟩
  have hcons := List.cons.inj hbehind
  exact h behind hcons.1.symm hcons.2.symm

/-- Behind its opening brackets an attribute is read as a body. -/
theorem reads_grammar_iff (rest : Text) (result : Option Text) :
    Reads grammar grammar (opener ++ rest) result ↔ Reads grammar body rest result := by
  have hopener : Reads grammar (.literal opener) (opener ++ rest) (some rest) :=
    Reads.literal opener rest
  constructor
  · intro h
    cases h with
    | inTurn hfirst hlast =>
      cases hopener.unique hfirst
      exact hlast
    | inTurn_fails hfirst => cases hopener.unique hfirst
  · exact Reads.inTurn hopener

/-- Without opening brackets there is no attribute. -/
theorem reads_recur_none {text : Text} (h : ¬ opener <+: text) :
    Reads grammar .recur text none :=
  Reads.recur (Reads.inTurn_fails (Reads.literal_fails h))

/-- An attribute inside is an item. -/
theorem reads_item_opener {rest middle : Text} (h : Reads grammar body rest (some middle)) :
    Reads grammar item (opener ++ rest) (some middle) :=
  Reads.orElse_first (Reads.recur ((reads_grammar_iff rest _).mpr h))

/-- Where an attribute inside fails, its brackets are no item either. -/
theorem reads_item_opener_none {rest : Text} (h : Reads grammar body rest none) :
    Reads grammar item (opener ++ rest) none := by
  have hinner : Reads grammar .recur (opener ++ rest) none :=
    Reads.recur ((reads_grammar_iff rest _).mpr h)
  have hpair : Reads grammar (.orElse (.literal opener) (.literal closer)) (opener ++ rest)
      (some rest) := Reads.orElse_first (Reads.literal opener rest)
  exact Reads.orElse_last hinner (Reads.inTurn_fails (Reads.absent_fails hpair))

/-- Closing brackets are no item. -/
theorem reads_item_closer (rest : Text) : Reads grammar item (closer ++ rest) none := by
  have hno := closer_not_opener rest
  have hpair : Reads grammar (.orElse (.literal opener) (.literal closer)) (closer ++ rest)
      (some rest) := Reads.orElse_last (Reads.literal_fails hno) (Reads.literal closer rest)
  exact Reads.orElse_last (reads_recur_none hno) (Reads.inTurn_fails (Reads.absent_fails hpair))

/-- A text at which no pair of brackets begins has no pair at its front. -/
theorem reads_absent {text : Text} (hopener : ¬ opener <+: text) (hcloser : ¬ closer <+: text) :
    Reads grammar (.absent (.orElse (.literal opener) (.literal closer))) text (some text) :=
  Reads.absent (Reads.orElse_last (Reads.literal_fails hopener) (Reads.literal_fails hcloser))

/-- A character at which no pair of brackets begins is an item. -/
theorem reads_item_other {c : Char} {rest : Text} (hopener : ¬ opener <+: c :: rest)
    (hcloser : ¬ closer <+: c :: rest) : Reads grammar item (c :: rest) (some rest) :=
  Reads.orElse_last (reads_recur_none hopener)
    (Reads.inTurn (reads_absent hopener hcloser) (Reads.anyChar c rest))

/-- At the end of the text there is no item. -/
theorem reads_item_nil : Reads grammar item [] none := by
  have hopener : ¬ opener <+: [] := fun h => nomatch List.prefix_nil.mp h
  have hcloser : ¬ closer <+: [] := fun h => nomatch List.prefix_nil.mp h
  exact Reads.orElse_last (reads_recur_none hopener)
    (Reads.inTurn (reads_absent hopener hcloser) Reads.anyChar_fails)

/-- A body goes on behind an item. -/
theorem reads_body_of_item {text middle : Text} {result : Option Text}
    (hitem : Reads grammar item text (some middle)) (h : Reads grammar body middle result) :
    Reads grammar body text result := by
  cases h with
  | inTurn hmany hcloser => exact Reads.inTurn (Reads.many_more hitem hmany) hcloser
  | inTurn_fails hmany => exact Reads.inTurn_fails (Reads.many_more hitem hmany)

/-- A body fails where neither an item nor closing brackets follow. -/
theorem reads_body_none {text : Text} (hitem : Reads grammar item text none)
    (hcloser : ¬ closer <+: text) : Reads grammar body text none :=
  Reads.inTurn (Reads.many_stops hitem) (Reads.literal_fails hcloser)

/-- A body ends with closing brackets. -/
theorem reads_body_closer (rest : Text) : Reads grammar body (closer ++ rest) (some rest) :=
  Reads.inTurn (Reads.many_stops (reads_item_closer rest)) (Reads.literal closer rest)

/-- How a text is read as the bodies of attributes inside each other, the innermost first, with the
number of attributes around it. A body that fails fails the bodies around it. -/
inductive ReadsBodies : Nat → Text → Option Text → Prop where
  /-- No attribute is around the body. -/
  | outermost {text : Text} {result : Option Text} :
      Reads grammar body text result → ReadsBodies 0 text result
  /-- The innermost body ends, and the one around it goes on. -/
  | closes {outer : Nat} {text middle : Text} {result : Option Text} :
      Reads grammar body text (some middle) → ReadsBodies outer middle result →
        ReadsBodies (outer + 1) text result
  /-- The innermost body fails. -/
  | fails {outer : Nat} {text : Text} :
      Reads grammar body text none → ReadsBodies (outer + 1) text none

/-- Whatever is around it, a body that fails is all that matters. -/
theorem ReadsBodies.of_body_none (outer : Nat) {text : Text} (h : Reads grammar body text none) :
    ReadsBodies outer text none := by
  cases outer with
  | zero => exact .outermost h
  | succ outer => exact .fails h

/-- What reads the innermost body elsewhere reads all of them there. -/
theorem ReadsBodies.of_body {outer : Nat} {text other : Text} {result : Option Text}
    (hbody : ∀ result, Reads grammar body text result → Reads grammar body other result)
    (h : ReadsBodies outer text result) : ReadsBodies outer other result := by
  cases h with
  | outermost hread => exact .outermost (hbody _ hread)
  | closes hread hrest => exact .closes (hbody _ hread) hrest
  | fails hread => exact .fails (hbody _ hread)

/-- Opening brackets begin one more body. -/
theorem ReadsBodies.opener {outer : Nat} {rest : Text} {result : Option Text}
    (h : ReadsBodies (outer + 1) rest result) : ReadsBodies outer (opener ++ rest) result := by
  cases h with
  | closes hbody hrest =>
    exact hrest.of_body fun _ hread => reads_body_of_item (reads_item_opener hbody) hread
  | fails hbody =>
    have hno := opener_not_closer rest
    exact .of_body_none outer (reads_body_none (reads_item_opener_none hbody) hno)

/-- What the scanner has taken of the bodies when it answers: up to the closing brackets of the
outermost one, or it leaves the attribute open because a body fails. -/
def FollowsBodies (outer taken : Nat) (text : Text) (extent : Extent) : Prop :=
  (∃ front rest, text = front ++ rest ∧ extent = .ended (taken + front.length) ∧
    ReadsBodies outer text (some rest)) ∨
  (extent.closed = false ∧ ReadsBodies outer text none)

/-- A piece behind which the bodies go on is added to what is taken. -/
theorem FollowsBodies.append {outer inner taken : Nat} (piece : Text) {rest : Text}
    {extent : Extent}
    (hpiece : ∀ result, ReadsBodies inner rest result → ReadsBodies outer (piece ++ rest) result)
    (h : FollowsBodies inner (taken + piece.length) rest extent) :
    FollowsBodies outer taken (piece ++ rest) extent := by
  rcases h with ⟨front, behind, hrest, hextent, hread⟩ | ⟨hopen, hread⟩
  · have hlength : taken + piece.length + front.length = taken + (piece ++ front).length := by
      rw [List.length_append, Nat.add_assoc]
    refine Or.inl ⟨piece ++ front, behind, ?_, ?_, hpiece _ hread⟩
    · rw [hrest, List.append_assoc]
    · rw [hextent, hlength]
  · exact Or.inr ⟨hopen, hpiece _ hread⟩

/-- Counting the open attributes follows the grammar. The induction is along the scan, which takes a
pair of brackets or one character at a time. -/
theorem followsBodies_bodyFrom (outer taken : Nat) (text : Text) :
    FollowsBodies outer taken text (bodyFrom outer taken text) := by
  fun_induction bodyFrom outer taken text with
  | case1 outer taken =>
    have hcloser : ¬ closer <+: [] := by
      intro hbegin
      cases List.prefix_nil.mp hbegin
    exact Or.inr ⟨rfl, .of_body_none outer (reads_body_none reads_item_nil hcloser)⟩
  | case2 outer taken rest ih =>
    exact FollowsBodies.append opener (fun _ hread => hread.opener) ih
  | case3 taken rest =>
    exact Or.inl ⟨closer, rest, rfl, rfl, .outermost (reads_body_closer rest)⟩
  | case4 taken rest outer ih =>
    exact FollowsBodies.append closer
      (fun _ hread => .closes (reads_body_closer rest) hread) ih
  | case5 outer taken c rest hopen hclose ih =>
    have hitem := reads_item_other (alone_not_opener hopen) (alone_not_closer hclose)
    exact FollowsBodies.append [c]
      (fun _ hread => hread.of_body fun _ hbody => reads_body_of_item hitem hbody) ih

/-- Behind its opening brackets an attribute ends where the grammar does, or it is open and the
grammar fails. -/
theorem scan?_cases (rest : Text) :
    (∃ front behind, opener ++ rest = front ++ behind ∧
      scan? (opener ++ rest) = some (.ended front.length) ∧
      Reads grammar grammar (opener ++ rest) (some behind)) ∨
    (scan? (opener ++ rest) = some (.openEnded (opener ++ rest)) ∧
      Reads grammar grammar (opener ++ rest) none) := by
  have hscan : scan? (opener ++ rest) = some (bodyFrom 0 2 rest) := rfl
  rcases followsBodies_bodyFrom 0 2 rest with
    ⟨front, behind, hrest, hextent, hread⟩ | ⟨hopen, hread⟩
  · cases hread with
    | outermost hbody =>
      refine Or.inl ⟨opener ++ front, behind, ?_, ?_, (reads_grammar_iff rest _).mpr hbody⟩
      · rw [hrest, List.append_assoc]
      · rw [hscan, hextent, List.length_append]
        rfl
  · cases hread with
    | outermost hbody =>
      have hwhole := (scan?_fits hscan).whole hopen
      refine Or.inr ⟨?_, (reads_grammar_iff rest _).mpr hbody⟩
      rw [hscan, Extent.openEnded, ← hwhole, ← hopen]

/-- Why a counter cannot be moved. -/
inductive Fault where
  /-- It is at its greatest value already. -/
  | overflow
  /-- It is at zero already. -/
  | underflow
deriving DecidableEq, Repr

/-- A counter of 32 bits, one higher. -/
def raise (depth : UInt32) : Except Fault UInt32 :=
  if depth.toNat + 1 < UInt32.size then .ok (depth + 1) else .error .overflow

/-- A counter of 32 bits, one lower. -/
def lower (depth : UInt32) : Except Fault UInt32 :=
  if depth = 0 then .error .underflow else .ok (depth - 1)

/-- Reach in bytes of an attribute that has been followed up to an index, with the number of
attributes open there. -/
def bytesFrom (utf8 : List UInt8) (index : Nat) (depth : UInt32) : Except Fault Extent :=
  if _h : index < utf8.length ∧ depth ≠ 0 then
    if [0x5B, 0x5B].isPrefixOf (utf8.drop index) then do
      bytesFrom utf8 (index + 2) (← raise depth)
    else if [0x5D, 0x5D].isPrefixOf (utf8.drop index) then do
      bytesFrom utf8 (index + 2) (← lower depth)
    else bytesFrom utf8 (index + 1) depth
  else .ok (if depth = 0 then .ended index else ⟨utf8.length, false⟩)
termination_by utf8.length - index

/-- Reach in bytes of the attribute at the front of some bytes. -/
def scanBytes? (utf8 : List UInt8) : Option (Except Fault Extent) :=
  if [0x5B, 0x5B].isPrefixOf utf8 then some (bytesFrom utf8 2 1) else none

/-- A counter that counts something is not zero. -/
theorem ne_zero_of_toNat {depth : UInt32} {outer : Nat} (h : depth.toNat = outer + 1) :
    depth ≠ 0 := by
  rintro rfl
  cases h

/-- Below its greatest value a counter goes up. -/
theorem exists_raise {depth : UInt32} (h : depth.toNat + 1 < UInt32.size) :
    ∃ higher, raise depth = .ok higher ∧ higher.toNat = depth.toNat + 1 := by
  have hone : (1 : UInt32).toNat = 1 := rfl
  refine ⟨depth + 1, if_pos h, ?_⟩
  rw [UInt32.toNat_add, hone]
  exact Nat.mod_eq_of_lt h

/-- Above zero a counter goes down. -/
theorem exists_lower {depth : UInt32} {outer : Nat} (h : depth.toNat = outer + 1) :
    ∃ deeper, lower depth = .ok deeper ∧ deeper.toNat = outer := by
  have hne := ne_zero_of_toNat h
  have hle : (1 : UInt32) ≤ depth := by
    rw [UInt32.le_iff_toNat_le, h]
    exact Nat.le_add_left 1 outer
  refine ⟨depth - 1, if_neg hne, ?_⟩
  rw [UInt32.toNat_sub_of_le _ _ hle, h]
  rfl

/-- With no attribute open the walk is over. -/
theorem bytesFrom_zero (utf8 : List UInt8) (index : Nat) :
    bytesFrom utf8 index 0 = .ok (.ended index) := by
  rw [bytesFrom, dif_neg fun h => h.2 rfl, if_pos rfl]

/-- Behind the last byte the walk is over. -/
theorem bytesFrom_end (front : List UInt8) {depth : UInt32} (hdepth : depth ≠ 0) :
    bytesFrom front front.length depth = .ok ⟨front.length, false⟩ := by
  rw [bytesFrom, dif_neg fun h => Nat.lt_irrefl _ h.1, if_neg hdepth]

/-- What the bytes from the index on decide. -/
theorem bytesFrom_append (front : List UInt8) {behind : List UInt8} (hbehind : behind ≠ [])
    {depth : UInt32} (hdepth : depth ≠ 0) :
    bytesFrom (front ++ behind) front.length depth =
      if [0x5B, 0x5B] <+: behind then
        (raise depth).bind (bytesFrom (front ++ behind) (front.length + 2))
      else if [0x5D, 0x5D] <+: behind then
        (lower depth).bind (bytesFrom (front ++ behind) (front.length + 2))
      else bytesFrom (front ++ behind) (front.length + 1) depth := by
  have hpos := List.length_pos_iff.mpr hbehind
  have hlt : front.length < (front ++ behind).length := by
    rw [List.length_append]
    omega
  rw [bytesFrom, dif_pos ⟨hlt, hdepth⟩, List.drop_left]
  simp only [List.isPrefixOf_iff_prefix]
  rfl

/-- Bytes that are no brackets are passed over. -/
theorem bytesFrom_run {run : List UInt8} (hrun : ∀ byte ∈ run, byte ≠ 0x5B ∧ byte ≠ 0x5D)
    (front rest : List UInt8) {depth : UInt32} (hdepth : depth ≠ 0) :
    bytesFrom (front ++ (run ++ rest)) front.length depth =
      bytesFrom (front ++ (run ++ rest)) (front.length + run.length) depth := by
  induction run generalizing front with
  | nil => rfl
  | cons byte run ih =>
    obtain ⟨hopen, hclose⟩ := hrun byte List.mem_cons_self
    have hnext := ih (fun other h => hrun other (List.mem_cons_of_mem byte h)) (front ++ [byte])
    have hne : byte :: (run ++ rest) ≠ [] := List.cons_ne_nil _ _
    simp only [List.append_assoc, List.singleton_append, List.length_append,
      List.length_singleton] at hnext
    rw [List.cons_append, bytesFrom_append front hne hdepth,
      if_neg fun h => hopen (List.cons_prefix_cons.mp h).1.symm,
      if_neg fun h => hclose (List.cons_prefix_cons.mp h).1.symm, hnext, List.length_cons]
    congr 1
    omega

/-- Brackets begin the bytes where they begin the text. -/
theorem brackets_prefix_utf8_iff (text : Text) :
    ([0x5B, 0x5B] <+: utf8 text ↔ opener <+: text) ∧
      ([0x5D, 0x5D] <+: utf8 text ↔ closer <+: text) := by
  have hopener : utf8 opener <+: utf8 text ↔ opener <+: text := utf8_prefix_iff
  have hcloser : utf8 closer <+: utf8 text ↔ closer <+: text := utf8_prefix_iff
  exact ⟨hopener, hcloser⟩

/-- Opening brackets move the counter up. -/
theorem bytesFrom_opener (front rest : Text) {depth : UInt32} (hdepth : depth ≠ 0) :
    bytesFrom (utf8 (front ++ (opener ++ rest))) (bytes front) depth =
      (raise depth).bind
        (bytesFrom (utf8 (front ++ (opener ++ rest))) (bytes (front ++ opener))) := by
  have hbegin : opener <+: opener ++ rest := List.prefix_append opener rest
  have hbrackets := (brackets_prefix_utf8_iff (opener ++ rest)).1.mpr hbegin
  have hne : utf8 (opener ++ rest) ≠ [] := hbrackets.ne_nil (List.cons_ne_nil _ _)
  have hsize : bytes (front ++ opener) = (utf8 front).length + 2 := by
    rw [bytes_append, length_utf8]
    rfl
  rw [hsize, ← length_utf8 front, utf8_append, bytesFrom_append _ hne hdepth, if_pos hbrackets]

/-- Closing brackets move the counter down. -/
theorem bytesFrom_closer (front rest : Text) {depth : UInt32} (hdepth : depth ≠ 0) :
    bytesFrom (utf8 (front ++ (closer ++ rest))) (bytes front) depth =
      (lower depth).bind
        (bytesFrom (utf8 (front ++ (closer ++ rest))) (bytes (front ++ closer))) := by
  have hbrackets := brackets_prefix_utf8_iff (closer ++ rest)
  have hclose := hbrackets.2.mpr (List.prefix_append closer rest)
  have hopen := mt hbrackets.1.mp (closer_not_opener rest)
  have hne : utf8 (closer ++ rest) ≠ [] := hclose.ne_nil (List.cons_ne_nil _ _)
  have hsize : bytes (front ++ closer) = (utf8 front).length + 2 := by
    rw [bytes_append, length_utf8]
    rfl
  rw [hsize, ← length_utf8 front, utf8_append, bytesFrom_append _ hne hdepth, if_neg hopen,
    if_pos hclose]

/-- A character at which no pair of brackets begins is passed over with all its bytes. Its first
byte can be that of a single bracket, and then it is the only one. -/
theorem bytesFrom_other {c : Char} {rest : Text} (hopener : ¬ opener <+: c :: rest)
    (hcloser : ¬ closer <+: c :: rest) (front : Text) {depth : UInt32} (hdepth : depth ≠ 0) :
    bytesFrom (utf8 (front ++ c :: rest)) (bytes front) depth =
      bytesFrom (utf8 (front ++ c :: rest)) (bytes (front ++ [c])) depth := by
  have hsize : bytes (front ++ [c]) = (utf8 front).length + (String.utf8EncodeChar c).length := by
    rw [bytes_append, bytes_cons, bytes_nil, Nat.add_zero, length_utf8,
      String.length_utf8EncodeChar]
  rw [hsize, ← length_utf8 front, utf8_append]
  by_cases hbracket : c = '[' ∨ c = ']'
  · have hone : (String.utf8EncodeChar c).length = 1 := by
      rcases hbracket with rfl | rfl <;> rfl
    have hne : utf8 (c :: rest) ≠ [] := by
      rw [utf8_cons, ← List.length_pos_iff, List.length_append, hone]
      omega
    have hbrackets := brackets_prefix_utf8_iff (c :: rest)
    rw [hone, bytesFrom_append _ hne hdepth, if_neg (mt hbrackets.1.mp hopener),
      if_neg (mt hbrackets.2.mp hcloser)]
  · rw [utf8_cons]
    refine bytesFrom_run (fun byte hbyte => ⟨?_, ?_⟩) _ _ hdepth
    · rintro rfl
      exact hbracket (Or.inl (eq_of_toUInt8_mem (d := '[') (by decide) hbyte))
    · rintro rfl
      exact hbracket (Or.inr (eq_of_toUInt8_mem (d := ']') (by decide) hbyte))

/-- Followed byte by byte with a counter of 32 bits, the bodies of attributes reach as far as
character by character. The counter does not leave its range, since every attribute that is opened
takes two bytes of the text. -/
theorem bytesFrom_utf8 (front text : Text) (outer : Nat) {depth : UInt32}
    (hdepth : depth.toNat = outer + 1) (hroom : depth.toNat + bytes text < UInt32.size) :
    bytesFrom (utf8 (front ++ text)) (bytes front) depth =
      .ok ((bodyFrom outer front.length text).inBytes (front ++ text)) := by
  have hne := ne_zero_of_toNat hdepth
  generalize htaken : front.length = taken
  fun_induction bodyFrom outer taken text generalizing front depth with
  | case1 outer taken =>
    subst htaken
    rw [List.append_nil, ← length_utf8 front, bytesFrom_end _ hne, length_utf8, Extent.inBytes,
      List.take_length]
  | case2 outer taken rest ih =>
    subst htaken
    have hsize : bytes ('[' :: '[' :: rest) = 2 + bytes rest := bytes_append opener rest
    have hfits : depth.toNat + 1 < UInt32.size := by omega
    obtain ⟨higher, hraise, hhigher⟩ := exists_raise hfits
    have hopen : higher.toNat = outer + 1 + 1 := by omega
    have hnext := ih (front ++ opener) hopen (by omega) (ne_zero_of_toNat hopen) List.length_append
    rw [List.append_assoc] at hnext
    calc bytesFrom (utf8 (front ++ (opener ++ rest))) (bytes front) depth
        = bytesFrom (utf8 (front ++ (opener ++ rest))) (bytes (front ++ opener)) higher := by
          rw [bytesFrom_opener front rest hne, hraise]
          rfl
      _ = _ := hnext
  | case3 taken rest =>
    subst htaken
    obtain ⟨deeper, hlower, hdeeper⟩ := exists_lower hdepth
    have hzero : deeper = 0 := UInt32.toNat_inj.mp hdeeper
    have htake : (front ++ (closer ++ rest)).take (front.length + 2) = front ++ closer := by
      rw [List.take_length_add_append]
      rfl
    calc bytesFrom (utf8 (front ++ (closer ++ rest))) (bytes front) depth
        = bytesFrom (utf8 (front ++ (closer ++ rest))) (bytes (front ++ closer)) 0 := by
          rw [bytesFrom_closer front rest hne, hlower, hzero]
          rfl
      _ = .ok (.ended (bytes (front ++ closer))) := bytesFrom_zero _ _
      _ = _ := by
          rw [← htake]
          rfl
  | case4 taken rest outer ih =>
    subst htaken
    have hsize : bytes (']' :: ']' :: rest) = 2 + bytes rest := bytes_append closer rest
    obtain ⟨deeper, hlower, hdeeper⟩ := exists_lower hdepth
    have hnext := ih (front ++ closer) hdeeper (by omega) (ne_zero_of_toNat hdeeper)
      List.length_append
    rw [List.append_assoc] at hnext
    calc bytesFrom (utf8 (front ++ (closer ++ rest))) (bytes front) depth
        = bytesFrom (utf8 (front ++ (closer ++ rest))) (bytes (front ++ closer)) deeper := by
          rw [bytesFrom_closer front rest hne, hlower]
          rfl
      _ = _ := hnext
  | case5 outer taken c rest hopen hclose ih =>
    subst htaken
    have hopener := alone_not_opener hopen
    have hcloser := alone_not_closer hclose
    have hsize : bytes (c :: rest) = c.utf8Size + bytes rest := bytes_cons c rest
    have hnext := ih (front ++ [c]) hdepth (by omega) hne List.length_append
    rw [List.append_assoc] at hnext
    exact (bytesFrom_other hopener hcloser front hne).trans hnext

/-- Byte by byte, an attribute is found and followed as character by character, and the counter
stays in its range. -/
theorem scanBytes?_utf8 {text : Text} (hsize : bytes text < UInt32.size) :
    scanBytes? (utf8 text) = (scan? text).map fun extent => .ok (extent.inBytes text) := by
  have hbrackets := (brackets_prefix_utf8_iff text).1
  by_cases hopener : opener <+: text
  · obtain ⟨rest, rfl⟩ := hopener
    have hroom : bytes (opener ++ rest) = 2 + bytes rest := bytes_append opener rest
    have hone : (1 : UInt32).toNat = 0 + 1 := rfl
    have hbody := bytesFrom_utf8 opener rest 0 hone (by omega)
    rw [scanBytes?, if_pos (List.isPrefixOf_iff_prefix.mpr (hbrackets.mpr ⟨rest, rfl⟩))]
    exact congrArg some hbody
  · have hdeclined : scan? text = none := by
      unfold scan?
      split
      · next rest => exact absurd ⟨rest, rfl⟩ hopener
      · rfl
    have hno := mt List.isPrefixOf_iff_prefix.mp (mt hbrackets.mp hopener)
    rw [scanBytes?, if_neg hno, hdeclined, Option.map_none]

/-- An attribute ends where a grammar with priorities ends it: two opening brackets, then as long as
there are any attributes or characters at which no pair of brackets begins, then two closing
brackets. Where the grammar fails the attribute is open and takes all of the text. Followed byte by
byte with a counter of 32 bits, it reaches as far, and the counter never leaves its range. -/
theorem scan?_follows_grammar {text : Text} (hopener : opener <+: text)
    (hsize : bytes text < UInt32.size) :
    scanBytes? (utf8 text) = (scan? text).map (fun extent => .ok (extent.inBytes text)) ∧
      (∀ size, scanBytes? (utf8 text) = some (.ok (.ended size)) ↔
        ∃ front rest, text = front ++ rest ∧ bytes front = size ∧
          Reads grammar grammar text (some rest)) ∧
      ((∀ rest, ¬ Reads grammar grammar text (some rest)) →
        Reads grammar grammar text none ∧ scan? text = some (.openEnded text)) := by
  obtain ⟨rest, rfl⟩ := hopener
  have hbytes := scanBytes?_utf8 hsize
  refine ⟨hbytes, fun size => ?_, fun hnone => ?_⟩
  · rcases scan?_cases rest with ⟨front, behind, hwhole, hscan, hread⟩ | ⟨hscan, hread⟩
    · have hreach : scanBytes? (utf8 (opener ++ rest)) = some (.ok (.ended (bytes front))) := by
        rw [hbytes, hscan, Option.map_some, hwhole, Extent.inBytes, Extent.ended, List.take_left]
        rfl
      rw [hreach]
      constructor
      · intro h
        cases h
        exact ⟨front, behind, hwhole, rfl, hread⟩
      · rintro ⟨other, last, hother, rfl, hlast⟩
        cases hread.unique hlast
        rw [hwhole] at hother
        rw [List.append_cancel_right hother]
    · have hreach : scanBytes? (utf8 (opener ++ rest)) =
          some (.ok ((Extent.openEnded (opener ++ rest)).inBytes (opener ++ rest))) := by
        rw [hbytes, hscan, Option.map_some]
      rw [hreach]
      constructor
      · intro h
        cases h
      · rintro ⟨-, last, -, -, hlast⟩
        cases hread.unique hlast
  · rcases scan?_cases rest with ⟨front, behind, -, -, hread⟩ | ⟨hscan, hread⟩
    · exact absurd hread (hnone behind)
    · exact ⟨hread, hscan⟩

/-- Of three closing brackets behind an attribute inside another one the first two close the inner
one, and the third stands alone: the outer attribute goes on behind it. -/
theorem scan?_follows_grammar_nested :
    opener <+: "[[\u00e9[[]]][]]]".toList ∧ bytes "[[\u00e9[[]]][]]]".toList < UInt32.size ∧
      ∃ front rest, "[[\u00e9[[]]][]]]".toList = front ++ rest ∧ bytes front = 12 ∧
        Reads grammar grammar "[[\u00e9[[]]][]]]".toList (some rest) := by
  have hopener : opener <+: "[[\u00e9[[]]][]]]".toList := by
    decide
  have hsize : bytes "[[\u00e9[[]]][]]]".toList < UInt32.size := by
    decide
  have hscan : scan? "[[\u00e9[[]]][]]]".toList = some (.ended 11) := by
    decide
  obtain ⟨hbytes, hends, -⟩ := scan?_follows_grammar hopener hsize
  rw [hscan] at hbytes
  exact ⟨hopener, hsize, (hends 12).mp hbytes⟩

/-- Three opening brackets are a pair and a single one. -/
example : scan? ['[', '[', '[', ']', ']'] = some (.ended 5) := by
  decide

end CodeTint.Scan.Attribute
