import Snippet.Proofs.NumberRing
import Snippet.Proofs.TextRoutes

/-!
Which values have a text. Arrays around a conversion are remembered and counted, so they end it by themselves.
The errors that a conversion passes are neither remembered nor counted: it goes as deep as names and messages
of errors are nested, and on a ring of them it does not end in any number of steps.
-/

namespace Snippet.Script

section Failures

variable {ε α β : Type} {e : ε} {f : α → Except ε β} {xs : List α}

theorem ok_ne_error (a : α) (e : ε) : (.ok a : Except ε α) ≠ .error e := by
  rintro ⟨⟩

theorem bind_ne_error {x : Except ε α} (hx : x ≠ .error e) (hf : ∀ a, f a ≠ .error e) :
    (x >>= f) ≠ .error e := by
  cases x with
  | error e' =>
    intro h
    cases h
    exact hx rfl
  | ok a => exact hf a

theorem mapM_ne_error (h : ∀ a ∈ xs, f a ≠ .error e) : xs.mapM f ≠ .error e := by
  induction xs with
  | nil => exact ok_ne_error [] e
  | cons a rest ih =>
    rw [List.mapM_cons]
    apply bind_ne_error (h a List.mem_cons_self)
    intro b
    have hrest : rest.mapM f ≠ .error e := ih fun c hc => h c (List.mem_cons_of_mem a hc)
    exact bind_ne_error hrest fun bs => ok_ne_error (b :: bs) e

theorem exists_error_of_mapM (h : xs.mapM f = .error e) : ∃ a ∈ xs, f a = .error e := by
  by_contra hnone
  exact mapM_ne_error (fun a ha hfail => hnone ⟨a, ha, hfail⟩) h

/-- A conversion of several values fails as soon as that of one of them does. -/
theorem exists_mapM_error {a : α} (ha : a ∈ xs) (hfail : ∃ e, f a = .error e) :
    ∃ e, xs.mapM f = .error e := by
  induction xs with
  | nil => cases ha
  | cons b rest ih =>
    rw [List.mapM_cons]
    cases hb : f b with
    | error e => exact ⟨e, rfl⟩
    | ok c =>
      rcases List.mem_cons.mp ha with rfl | hrest
      · obtain ⟨e, he⟩ := hfail
        rw [he] at hb
        cases hb
      · obtain ⟨e, he⟩ := ih hrest
        rw [he]
        exact ⟨e, rfl⟩

/-- If every value has a conversion, all of them have. -/
theorem exists_mapM_ok (h : ∀ a ∈ xs, ∃ b, f a = .ok b) : ∃ bs, xs.mapM f = .ok bs := by
  cases hxs : xs.mapM f with
  | ok bs => exact ⟨bs, rfl⟩
  | error e =>
    obtain ⟨a, ha, hfail⟩ := exists_error_of_mapM hxs
    obtain ⟨b, hb⟩ := h a ha
    rw [hfail] at hb
    cases hb

end Failures

namespace Heap

variable {h : Heap} {a : ArrayRef} {o o' : ObjectRef} {v w : Value} {n k : Nat}

def HasItem (h : Heap) (v w : Value) : Prop := ∃ a, v = .array a ∧ w ∈ h.items a

def Tells (h : Heap) (o : ObjectRef) (v : Value) : Prop :=
  (h.object o).isError = true ∧
    ((h.object o).get? "name" = some v ∨ (h.object o).get? "message" = some v)

def Cites (h : Heap) (o o' : ObjectRef) : Prop :=
  ∃ v, h.Tells o v ∧ Relation.ReflTransGen h.HasItem v (.object o')

def Quotes (h : Heap) (o o' : ObjectRef) : Prop :=
  (h.object o).isError = true ∧ (h.object o).get? "message" = some (.object o')

def LeadsTo (h : Heap) (v : Value) (o : ObjectRef) : Prop :=
  ∃ o', Relation.ReflTransGen h.HasItem v (.object o') ∧ Relation.ReflTransGen h.Cites o' o

def LeadsToRing (h : Heap) (v : Value) : Prop := ∃ o, h.LeadsTo v o ∧ Relation.TransGen h.Cites o o

def ErrorsNest (h : Heap) : Nat → Value → Prop
  -- At most so many errors stand in each other's names and messages where the text of a value is
  -- made.
  | 0, v => ∀ o, Relation.ReflTransGen h.HasItem v (.object o) → (h.object o).isError = false
  | n + 1, v =>
    ∀ o, Relation.ReflTransGen h.HasItem v (.object o) → ∀ w, h.Tells o w → ErrorsNest h n w

def Shows (h : Heap) (v w : Value) : Prop :=
  h.HasItem v w ∨
    ∃ o key, v = .object o ∧ (h.object o).isError = false ∧ (key, w) ∈ (h.object o).entries

def ShownErrorsNest (h : Heap) (n : Nat) (v : Value) : Prop :=
  ∀ w, Relation.ReflTransGen h.Shows v w → h.ErrorsNest n w

def NestsTooDeeply (h : Heap) (a : ArrayRef) : Prop :=
  ∃ inner : List ArrayRef, (a :: inner).IsChain h.Contains ∧ (a :: inner).Nodup ∧ inner.length = maxDepth

/-- Where a nested array may be empty, being cut off is the only fault of a conversion. -/
theorem textWithin_ne_tooDeep (n : Nat) (v : Value) : h.textWithin n v ≠ .error .tooDeep := by
  induction n generalizing v with
  | zero => cases v <;> rintro ⟨⟩
  | succ n ih =>
    cases v with
    | array a =>
      unfold textWithin
      intro hdeep
      split at hdeep
      · cases hdeep
      · rename_i hjoin
        exact hjoin hdeep
    | object o =>
      cases ho : (h.object o).isError with
      | true =>
        have hmember (key : String) : h.memberTextWithin n o key ≠ .error .tooDeep := by
          unfold memberTextWithin
          split
          · exact ih _
          · exact ok_ne_error _ _
        rw [textWithin_error h ho]
        exact bind_ne_error (hmember _) fun name =>
          bind_ne_error (hmember _) fun message => ok_ne_error _ _
      | false =>
        unfold textWithin
        dsimp only
        rw [ho]
        exact ok_ne_error _ _
    | _ => exact ok_ne_error _ _

theorem exists_textWithin_of_le (hnk : n ≤ k) (hv : ∃ s, h.textWithin n v = .ok s) :
    ∃ s, h.textWithin k v = .ok s := by
  obtain ⟨s, hs⟩ := hv
  exact ⟨s, ((h.text_goesOn_of_le hnk).1 v).eq_ok hs⟩

theorem textWithin_plain {o : ObjectRef} (ho : (h.object o).isError = false) (n : Nat) :
    h.textWithin (n + 1) (.object o) = .ok "[object Object]" := by
  unfold textWithin
  dsimp only
  rw [ho]
  rfl

/-- The text of an element in at most `n` steps, with the given arrays around it. -/
def elementWithin (h : Heap) (n : Nat) (around : List ArrayRef) : Value → Except TextFault String
  | .undefined => .ok ""
  | .null => .ok ""
  | .array inner => h.joinWithin n around inner
  | v => h.textWithin n v

/-- The elements of an array that is not within itself are converted with that array around them, as long as
there is room for it. -/
theorem joinWithin_of_room {around : List ArrayRef} (ha : a ∉ around) (hroom : around.length < maxDepth) :
    h.joinWithin (n + 1) around a = (do
      return ",".intercalate (← (h.items a).toList.mapM (h.elementWithin n (a :: around)))) := by
  have houtside : ¬ around.contains a = true := fun hin => ha (List.contains_iff_mem.mp hin)
  unfold joinWithin
  rw [if_neg houtside, if_neg (Nat.not_le_of_lt hroom)]
  rfl

theorem joinWithin_of_full {around : List ArrayRef} (ha : a ∉ around) (hfull : maxDepth ≤ around.length) :
    h.joinWithin (n + 1) around a = .error .tooDeep := by
  have houtside : ¬ around.contains a = true := fun hin => ha (List.contains_iff_mem.mp hin)
  unfold joinWithin
  rw [if_neg houtside, if_pos hfull]

theorem joinWithin_of_mem {around : List ArrayRef} (ha : a ∈ around) :
    h.joinWithin (n + 1) around a = .ok "" := by
  unfold joinWithin
  rw [if_pos (List.contains_iff_mem.mpr ha)]

/-- If the objects in an array convert in `k` steps, then the array takes a step more for every array that
may yet stand in it; by induction on the number of those. -/
theorem joinWithin_ne_endless {room : Nat} (hk : 0 < k)
    (hobjects : ∀ o, Relation.ReflTransGen h.HasItem (.array a) (.object o) →
      ∃ s, h.textWithin k (.object o) = .ok s)
    {around : List ArrayRef} (hroom : maxDepth ≤ around.length + room) :
    h.joinWithin (k + room) around a ≠ .error .endless := by
  -- The induction is on how many arrays may still be nested into those around.
  induction room generalizing a around with
  | zero =>
    obtain ⟨j, rfl⟩ := Nat.exists_eq_succ_of_ne_zero hk.ne'
    rw [Nat.add_zero] at hroom ⊢
    by_cases ha : a ∈ around
    · rw [joinWithin_of_mem ha]
      exact ok_ne_error _ _
    · rw [joinWithin_of_full ha hroom]
      rintro ⟨⟩
  | succ room ih =>
    rw [← Nat.add_assoc]
    by_cases ha : a ∈ around
    · rw [joinWithin_of_mem ha]
      exact ok_ne_error _ _
    by_cases hfull : maxDepth ≤ around.length
    · rw [joinWithin_of_full ha hfull]
      rintro ⟨⟩
    rw [joinWithin_of_room ha (Nat.lt_of_not_le hfull)]
    refine bind_ne_error (mapM_ne_error fun v hv => ?_) fun parts => ok_ne_error _ _
    -- The elements lead to no more objects than the array does.
    have hitem : h.HasItem (.array a) v := ⟨a, rfl, Array.mem_toList_iff.mp hv⟩
    cases v with
    | array inner =>
      apply ih fun o ho => hobjects o (.head hitem ho)
      rw [List.length_cons]
      omega
    | object o =>
      obtain ⟨s, hs⟩ := exists_textWithin_of_le (Nat.le_add_right k room) (hobjects o (.single hitem))
      exact ne_of_eq_of_ne hs (ok_ne_error _ _)
    | _ => simp [elementWithin, textWithin]

/-- If the objects in a value convert in `k` steps, then the value takes as many more as arrays may be nested
and one for the value itself. -/
theorem exists_text_of_objects (hk : 0 < k)
    (hobjects : ∀ o, Relation.ReflTransGen h.HasItem v (.object o) →
      ∃ s, h.textWithin k (.object o) = .ok s) :
    ∃ s, h.textWithin (k + maxDepth + 1) v = .ok s := by
  cases v with
  | array a =>
    have hends : h.joinWithin (k + maxDepth) [] a ≠ .error .endless :=
      joinWithin_ne_endless hk hobjects (Nat.le_add_left _ _)
    unfold textWithin
    cases hjoin : h.joinWithin (k + maxDepth) [] a with
    | ok s => exact ⟨s, rfl⟩
    | error e =>
      cases e with
      | tooDeep => exact ⟨"", rfl⟩
      | endless => exact absurd hjoin hends
  | object o =>
    apply exists_textWithin_of_le _ (hobjects o .refl)
    omega
  | _ => exact ⟨_, rfl⟩

def objectDepth (errors : Nat) : Nat := errors * (maxDepth + 2) + 1

def depthFor (errors : Nat) : Nat := (errors + 1) * (maxDepth + 2)

theorem depthFor_eq (errors : Nat) : depthFor errors = objectDepth errors + maxDepth + 1 := by
  unfold depthFor objectDepth
  rw [Nat.succ_mul]
  omega

theorem objectDepth_succ (errors : Nat) :
    objectDepth (errors + 1) = objectDepth errors + maxDepth + 1 + 1 := by
  unfold objectDepth
  rw [Nat.succ_mul]
  omega

namespace ErrorsNest

/-- An error takes a step more than its name and its message; by induction on the errors in each other. -/
theorem exists_objectText (hv : h.ErrorsNest n v) (ho : Relation.ReflTransGen h.HasItem v (.object o)) :
    ∃ s, h.textWithin (objectDepth n) (.object o) = .ok s := by
  induction n generalizing v o with
  | zero => exact ⟨_, textWithin_plain (hv o ho) _⟩
  | succ n ih =>
    rw [objectDepth_succ]
    cases herror : (h.object o).isError with
    | false => exact ⟨_, textWithin_plain herror _⟩
    | true =>
      have hmember {key : String} (hkey : key = "name" ∨ key = "message") :
          ∃ s, h.memberTextWithin (objectDepth n + maxDepth + 1) o key = .ok s := by
        unfold memberTextWithin
        split
        · rename_i w hw
          have htells : h.Tells o w := by
            refine ⟨herror, ?_⟩
            rcases hkey with rfl | rfl
            · exact Or.inl hw
            · exact Or.inr hw
          exact exists_text_of_objects (Nat.succ_pos _) fun o' ho' => ih (hv o ho w htells) ho'
        · exact ⟨"", rfl⟩
      obtain ⟨name, hname⟩ := hmember (Or.inl rfl)
      obtain ⟨message, hmessage⟩ := hmember (Or.inr rfl)
      refine ⟨Script.errorText name message, ?_⟩
      rw [textWithin_error h herror, hname, hmessage]
      rfl

theorem exists_text (hv : h.ErrorsNest n v) : ∃ s, h.textWithin (depthFor n) v = .ok s := by
  rw [depthFor_eq]
  exact exists_text_of_objects (Nat.succ_pos _) fun o ho => hv.exists_objectText ho

theorem joinWithin_ne_endless (hv : h.ErrorsNest n (.array a)) :
    h.joinWithin (depthFor n) [] a ≠ .error .endless := by
  have hroom : maxDepth ≤ ([] : List ArrayRef).length + (maxDepth + 1) := by
    rw [List.length_nil]
    omega
  rw [depthFor_eq, Nat.add_assoc]
  exact Heap.joinWithin_ne_endless (Nat.succ_pos _) (fun o ho => hv.exists_objectText ho) hroom

/-- What a value comes to in the depth for its errors is its text. -/
theorem exists_text_eq (hv : h.ErrorsNest n v) :
    ∃ s, h.textWithin (depthFor n) v = .ok s ∧ h.text v = .ok s := by
  obtain ⟨s, hs⟩ := hv.exists_text
  refine ⟨s, hs, ?_⟩
  -- The depth may be more or less than what a text is given; neither makes a difference.
  rcases Nat.le_total (depthFor n) h.textFuel with hle | hle
  · exact ((h.text_goesOn_of_le hle).1 v).eq_ok hs
  · rw [← h.textWithin_eq_text (Nat.le_succ_of_le hle)]
    exact hs

theorem joinWithin_eq (hv : h.ErrorsNest n (.array a)) :
    h.joinWithin (depthFor n) [] a = h.strictText (.array a) := by
  rcases Nat.le_total (depthFor n) h.textFuel with hle | hle
  · rcases (h.text_goesOn_of_le hle).2 [] a with hcut | hsame
    · exact absurd hcut hv.joinWithin_ne_endless
    · exact hsame.symm
  · exact h.joinWithin_eq_joinWithin (Nat.le_succ_of_le hle) a

/-- A conversion through finitely many errors ends. -/
theorem strictText_ne_endless (hv : h.ErrorsNest n v) : h.strictText v ≠ .error .endless := by
  cases v with
  | array a =>
    rw [← hv.joinWithin_eq]
    exact hv.joinWithin_ne_endless
  | _ =>
    obtain ⟨s, -, hs⟩ := hv.exists_text_eq
    exact ne_of_eq_of_ne hs (ok_ne_error _ _)

end ErrorsNest

/-- Errors of which each is the message of the one before are passed one within the other. -/
theorem textWithin_endless_of_chain {l : List ObjectRef} (hchain : (o :: l).IsChain h.Quotes) :
    h.textWithin l.length (.object o) = .error .endless := by
  induction l generalizing o with
  | nil => rfl
  | cons o' l ih =>
    rw [List.isChain_cons_cons] at hchain
    obtain ⟨⟨herror, hmessage⟩, hrest⟩ := hchain
    have hcut : h.memberTextWithin l.length o "message" = .error .endless := by
      unfold memberTextWithin
      rw [hmessage]
      exact ih hrest
    rw [List.length_cons, textWithin_error h herror, hcut]
    -- The name is looked at first, but being cut off is the only fault of a text.
    cases hname : h.memberTextWithin l.length o "name" with
    | ok name => rfl
    | error e =>
      cases e with
      | endless => rfl
      | tooDeep =>
        unfold memberTextWithin at hname
        split at hname
        · exact absurd hname (textWithin_ne_tooDeep _ _)
        · cases hname

/-- An array is found too deep after as many arrays in each other as may be nested; by induction on the
steps. -/
theorem exists_path_of_tooDeep {around : List ArrayRef} (hroom : around.length ≤ maxDepth)
    (hdeep : h.joinWithin n around a = .error .tooDeep) :
    ∃ inner : List ArrayRef, (a :: inner).IsChain h.Contains ∧ (a :: inner).Nodup ∧
      (∀ b ∈ a :: inner, b ∉ around) ∧ around.length + inner.length = maxDepth := by
  induction n generalizing a around with
  | zero => cases hdeep
  | succ n ih =>
    by_cases ha : a ∈ around
    · rw [joinWithin_of_mem ha] at hdeep
      cases hdeep
    by_cases hfull : maxDepth ≤ around.length
    · -- There is no room for the array itself.
      refine ⟨[], List.isChain_singleton a, List.nodup_singleton a, ?_, Nat.le_antisymm hroom hfull⟩
      intro b hb
      rw [List.mem_singleton.mp hb]
      exact ha
    rw [joinWithin_of_room ha (Nat.lt_of_not_le hfull)] at hdeep
    -- Joining the texts of the elements cannot fail, so one of them did.
    have hparts : (h.items a).toList.mapM (h.elementWithin n (a :: around)) = .error .tooDeep := by
      by_contra hparts
      exact absurd hdeep (bind_ne_error hparts fun parts => ok_ne_error _ _)
    obtain ⟨v, hv, hfail⟩ := exists_error_of_mapM hparts
    cases v with
    | array b =>
      have hroom' : (a :: around).length ≤ maxDepth := Nat.lt_of_not_le hfull
      obtain ⟨inner, hchain, hnodup, hfresh, hlength⟩ := ih hroom' hfail
      have hab : a ∉ b :: inner := fun hin => hfresh a hin List.mem_cons_self
      refine ⟨b :: inner, ?_, List.nodup_cons.mpr ⟨hab, hnodup⟩, ?_, ?_⟩
      · exact List.isChain_cons_cons.mpr ⟨Array.mem_toList_iff.mp hv, hchain⟩
      · intro c hc
        rcases List.mem_cons.mp hc with rfl | hc
        · exact ha
        · exact fun hin => hfresh c hc (List.mem_cons_of_mem _ hin)
      · rw [List.length_cons] at hlength ⊢
        omega
    | undefined => cases hfail
    | null => cases hfail
    | _ => exact absurd hfail (textWithin_ne_tooDeep _ _)

/-- Arrays in each other that leave no room have no text; by induction along them. -/
theorem exists_error_of_path {around inner : List ArrayRef} (hchain : (a :: inner).IsChain h.Contains)
    (hnodup : (a :: inner).Nodup) (hfresh : ∀ b ∈ a :: inner, b ∉ around)
    (hlength : around.length + inner.length = maxDepth) : ∃ e, h.joinWithin n around a = .error e := by
  induction inner generalizing a around n with
  | nil =>
    cases n with
    | zero => exact ⟨_, rfl⟩
    | succ n => exact ⟨_, joinWithin_of_full (hfresh a List.mem_cons_self) hlength.ge⟩
  | cons b inner ih =>
    cases n with
    | zero => exact ⟨_, rfl⟩
    | succ n =>
      rw [List.length_cons] at hlength
      obtain ⟨hab, hchain⟩ := List.isChain_cons_cons.mp hchain
      obtain ⟨hnotin, hnodup⟩ := List.nodup_cons.mp hnodup
      -- Each array has room of its own only because none of them has been entered before.
      have hfresh' : ∀ c ∈ b :: inner, c ∉ a :: around := by
        intro c hc hin
        rcases List.mem_cons.mp hin with rfl | hin
        · exact hnotin hc
        · exact hfresh c (List.mem_cons_of_mem a hc) hin
      have hlength' : (a :: around).length + inner.length = maxDepth := by
        rw [List.length_cons]
        omega
      have hfail : ∃ e, h.elementWithin n (a :: around) (.array b) = .error e :=
        ih hchain hnodup hfresh' hlength'
      obtain ⟨e, he⟩ := exists_mapM_error (Array.mem_toList_iff.mpr hab) hfail
      refine ⟨e, ?_⟩
      rw [joinWithin_of_room (hfresh a List.mem_cons_self) (by omega), he]
      rfl

/-- A conversion of an array is too deep exactly if its arrays nest beyond the limit. -/
theorem ErrorsNest.tooDeep_iff (hv : h.ErrorsNest n (.array a)) :
    h.strictText (.array a) = .error .tooDeep ↔ h.NestsTooDeeply a := by
  constructor
  · intro hdeep
    obtain ⟨inner, hchain, hnodup, -, hlength⟩ := exists_path_of_tooDeep (Nat.zero_le _) hdeep
    rw [List.length_nil, Nat.zero_add] at hlength
    exact ⟨inner, hchain, hnodup, hlength⟩
  · rintro ⟨inner, hchain, hnodup, hlength⟩
    have hnone : ([] : List ArrayRef).length + inner.length = maxDepth :=
      (Nat.zero_add _).trans hlength
    obtain ⟨e, he⟩ := exists_error_of_path (n := h.textFuel) hchain hnodup (fun _ _ => List.not_mem_nil) hnone
    cases e with
    | tooDeep => exact he
    | endless => exact absurd he hv.strictText_ne_endless

/-- Where the elements of an array cannot be joined, the array is converted to the empty text. -/
theorem text_of_tooDeep (hdeep : h.strictText (.array a) = .error .tooDeep) :
    h.text (.array a) = .ok "" := by
  obtain ⟨n, hn⟩ : ∃ n, h.textFuel = n + 1 :=
    Nat.exists_eq_succ_of_ne_zero (Nat.mul_pos (Nat.succ_pos _) (Nat.succ_pos _)).ne'
  have hjoin : h.joinWithin n [] a = .error .tooDeep := (h.joinWithin_eq_joinWithin hn.le a).trans hdeep
  unfold text
  rw [hn]
  unfold textWithin
  rw [hjoin]

/-- A value has a printed form if it has a text and what it shows has printed forms a level below. -/
theorem exists_printed_of_parts {depth : Nat} {around : List Container} (htext : ∃ s, h.text v = .ok s)
    (hparts : ∀ below, depth = below + 1 → ∀ around w, h.Shows v w →
      ∃ s, h.printedWithin below around w = .ok s) :
    ∃ s, h.printedWithin depth around v = .ok s := by
  cases v with
  | array a =>
    unfold printedWithin
    dsimp only
    split_ifs
    · exact ⟨_, rfl⟩
    · exact ⟨_, rfl⟩
    · cases depth with
      | zero => exact ⟨_, rfl⟩
      | succ depth =>
        have hitems : ∀ v ∈ (h.items a).toList,
            ∃ s, h.printedWithin depth (.array a :: around) v = .ok s := fun v hv =>
          hparts depth rfl _ v (Or.inl ⟨a, rfl, Array.mem_toList_iff.mp hv⟩)
        obtain ⟨parts, hparts⟩ := exists_mapM_ok hitems
        dsimp only
        rw [hparts]
        exact ⟨_, rfl⟩
  | object o =>
    unfold printedWithin
    dsimp only
    split_ifs with hin herror hempty
    · exact ⟨_, rfl⟩
    · obtain ⟨s, hs⟩ := htext
      unfold errorText
      rw [hs]
      exact ⟨_, rfl⟩
    · exact ⟨_, rfl⟩
    · cases depth with
      | zero => exact ⟨_, rfl⟩
      | succ depth =>
        have hentries : ∀ e ∈ (h.object o).entries, ∃ s, (do
            let text ← h.printedWithin depth (.object o :: around) e.2
            return s!"{keyText e.1}: {text}" : Except TextFault String) = .ok s := by
          intro e he
          have hshown : h.Shows (.object o) e.2 :=
            Or.inr ⟨o, e.1, rfl, Bool.eq_false_of_not_eq_true herror, he⟩
          obtain ⟨s, hs⟩ := hparts depth rfl (.object o :: around) e.2 hshown
          rw [hs]
          exact ⟨_, rfl⟩
        obtain ⟨parts, hparts⟩ := exists_mapM_ok hentries
        dsimp only
        rw [hparts]
        exact ⟨_, rfl⟩
  | string s => exact ⟨_, by rw [printedWithin]⟩
  | function f i => exact ⟨_, by rw [printedWithin]⟩
  | _ =>
    simp only [printedWithin]
    exact htext

/-- The printed form of a value ends if the texts of all that it shows do; by induction on the depth down to
which containers are shown. -/
theorem exists_printedWithin {depth : Nat} {around : List Container}
    (htexts : ∀ w, Relation.ReflTransGen h.Shows v w → ∃ s, h.text w = .ok s) :
    ∃ s, h.printedWithin depth around v = .ok s := by
  induction depth generalizing v around with
  | zero =>
    apply exists_printed_of_parts (htexts v .refl)
    intro below hbelow
    exact absurd hbelow.symm (Nat.succ_ne_zero below)
  | succ depth ih =>
    apply exists_printed_of_parts (htexts v .refl)
    intro below hbelow around w hw
    obtain rfl := Nat.succ.inj hbelow
    exact ih fun u hu => htexts u (.head hw hu)

structure Converts (h : Heap) (depth : Nat) (v : Value) : Prop where
  /-- Whatever the value shows has a text, which is found in the depth. -/
  texts : ∀ w, Relation.ReflTransGen h.Shows v w → ∃ s, h.textWithin depth w = .ok s ∧ h.text w = .ok s
  /-- What comes of joining the elements of an array is found in the depth too. -/
  joined : ∀ a, v = .array a → h.joinWithin depth [] a = h.strictText v
  /-- Where a text is asked for, only arrays nested too deeply have none, and that is a failure that a
  script sees. -/
  raises : ∀ m : Machine, m.heap = h →
    ((∃ s, verdict (Run.toStrictText v m) = .ok s) ∨
      verdict (Run.toStrictText v m) = .error (.raised .stackOverflow)) ∧
    (verdict (Run.toStrictText v m) = .error (.raised .stackOverflow) ↔
      ∃ a, v = .array a ∧ h.NestsTooDeeply a)
  /-- Arrays that are nested too deeply are otherwise converted to the empty text. -/
  empty : ∀ a, v = .array a → h.NestsTooDeeply a → h.text v = .ok ""
  printed : ∃ s, h.printed v = .ok s
  uncaught : ∃ s, h.uncaught v = .ok s

/-- What is shown through finitely many errors is converted in finitely many steps. -/
theorem ShownErrorsNest.converts (hv : h.ShownErrorsNest n v) : h.Converts (depthFor n) v := by
  have hself : h.ErrorsNest n v := hv v .refl
  have htexts (w : Value) (hw : Relation.ReflTransGen h.Shows v w) : ∃ s, h.text w = .ok s := by
    obtain ⟨s, -, hs⟩ := (hv w hw).exists_text_eq
    exact ⟨s, hs⟩
  obtain ⟨text, htext⟩ := htexts v .refl
  have hprinted : ∃ s, h.printedInside v = .ok s := exists_printedWithin htexts
  obtain ⟨inside, hinside⟩ := hprinted
  -- Only an array is too deep, as texts of anything else are not counted.
  have hdeep : h.strictText v = .error .tooDeep ↔ ∃ a, v = .array a ∧ h.NestsTooDeeply a := by
    constructor
    · intro hdeep
      cases v with
      | array a => exact ⟨a, rfl, hself.tooDeep_iff.mp hdeep⟩
      | _ => exact absurd hdeep (textWithin_ne_tooDeep _ _)
    · rintro ⟨a, rfl, ha⟩
      exact hself.tooDeep_iff.mpr ha
  refine ⟨fun w hw => (hv w hw).exists_text_eq, ?_, ?_, ?_, ?_, ?_⟩
  · rintro a rfl
    exact hself.joinWithin_eq
  · rintro m rfl
    rw [run_toStrictText, ← hdeep]
    cases hstrict : m.heap.strictText v with
    | ok s =>
      refine ⟨Or.inl ⟨s, rfl⟩, ?_⟩
      constructor
      all_goals rintro ⟨⟩
    | error e =>
      cases e with
      | tooDeep => exact ⟨Or.inr rfl, ⟨fun _ => rfl, fun _ => rfl⟩⟩
      | endless => exact absurd hstrict hself.strictText_ne_endless
  · rintro a rfl ha
    exact text_of_tooDeep (hself.tooDeep_iff.mpr ha)
  · unfold printed
    split
    · exact ⟨_, rfl⟩
    · split_ifs
      · exact ⟨text, htext⟩
      · exact ⟨inside, hinside⟩
  · unfold uncaught
    split_ifs
    · exact ⟨text, htext⟩
    · rw [hinside]
      exact ⟨_, rfl⟩

-- Where a conversion comes to errors that stand in each other's names and messages in a ring.

theorem LeadsTo.head (ho : Relation.ReflTransGen h.HasItem v (.object o)) (hw : h.Tells o w)
    (hlead : h.LeadsTo w o') : h.LeadsTo v o' := by
  obtain ⟨first, hreach, hcites⟩ := hlead
  exact ⟨o, ho, .head ⟨w, hw, hreach⟩ hcites⟩

theorem lt_size_of_isError (ho : (h.object o).isError = true) : o.address < h.objects.size := by
  by_contra hmissing
  unfold object at ho
  rw [Array.getD_eq_getD_getElem?, Array.getElem?_eq_none (Nat.le_of_not_lt hmissing)] at ho
  cases ho

/-- If errors nest deeper than a number, then there are that many and one more of which each stands in the one
before. -/
theorem exists_chain_of_not_nest (hv : ¬ h.ErrorsNest n v) :
    ∃ l : List ObjectRef, l.length = n + 1 ∧
      (∀ o ∈ l.head?, Relation.ReflTransGen h.HasItem v (.object o)) ∧ l.IsChain h.Cites ∧
        ∀ o ∈ l, h.LeadsTo v o ∧ (h.object o).isError = true := by
  induction n generalizing v with
  | zero =>
    simp only [ErrorsNest, not_forall, Bool.not_eq_false] at hv
    obtain ⟨o, ho, herror⟩ := hv
    refine ⟨[o], rfl, by simpa using ho, List.isChain_singleton o, ?_⟩
    intro c hc
    rw [List.mem_singleton.mp hc]
    exact ⟨⟨o, ho, .refl⟩, herror⟩
  | succ n ih =>
    simp only [ErrorsNest, not_forall] at hv
    obtain ⟨o, ho, w, hw, hnest⟩ := hv
    obtain ⟨l, hlength, hhead, hchain, hmem⟩ := ih hnest
    refine ⟨o :: l, congrArg (· + 1) hlength, by simpa using ho, ?_, ?_⟩
    · rw [List.isChain_cons]
      exact ⟨fun c hc => ⟨w, hw, hhead c hc⟩, hchain⟩
    · intro c hc
      rcases List.mem_cons.mp hc with rfl | hc
      · exact ⟨⟨c, ho, .refl⟩, hw.1⟩
      · exact ⟨(hmem c hc).1.head ho hw, (hmem c hc).2⟩

/-- There are not as many errors as objects and one more, so some error stands in itself. -/
theorem leadsToRing_of_not_nest (hv : ¬ h.ErrorsNest h.objects.size v) : h.LeadsToRing v := by
  obtain ⟨l, hlength, -, hchain, hmem⟩ := exists_chain_of_not_nest hv
  have hplaces : Function.Injective ObjectRef.address := fun o o' heq => by
    cases o
    cases o'
    exact congrArg ObjectRef.mk heq
  have hlong : h.objects.size < l.length := by omega
  obtain ⟨o, ho, hring⟩ :=
    exists_ring_of_long_chain hplaces hchain (fun o ho => lt_size_of_isError (hmem o ho).2) hlong
  exact ⟨o, (hmem o ho).1, hring⟩

/-- On the way to a ring there is an error that tells a value on the way to it. -/
theorem LeadsToRing.next (hv : h.LeadsToRing v) :
    ∃ o, Relation.ReflTransGen h.HasItem v (.object o) ∧ ∃ w, h.Tells o w ∧ h.LeadsToRing w := by
  obtain ⟨last, ⟨o, ho, hlast⟩, hring⟩ := hv
  -- The first error on the way stands in the ring itself or leads there, so it has another one in it.
  obtain ⟨next, ⟨w, hw, hreach⟩, hnext⟩ :
      ∃ next, h.Cites o next ∧ Relation.ReflTransGen h.Cites next last := by
    rcases hlast.cases_head with rfl | hstep
    · exact Relation.TransGen.head'_iff.mp hring
    · exact hstep
  exact ⟨o, ho, w, hw, last, ⟨next, hreach, hnext⟩, hring⟩

/-- What leads to a ring is nested to no depth. -/
theorem LeadsToRing.not_nest (hv : h.LeadsToRing v) (n : Nat) : ¬ h.ErrorsNest n v := by
  intro hnest
  induction n generalizing v with
  | zero =>
    obtain ⟨o, ho, w, hw, -⟩ := hv.next
    exact absurd hw.1 (Bool.eq_false_iff.mp (hnest o ho))
  | succ n ih =>
    obtain ⟨o, ho, w, hw, hring⟩ := hv.next
    exact ih hring (hnest o ho w hw)

/-- If the errors that a value shows nest down to a number, then all its conversions end in a depth that grows
with that number and with nothing else; the errors of a heap never nest deeper than it has objects, unless
they lead into a ring, where they nest deeper than any number. -/
theorem conversions_end_outside_error_rings (h : Heap) (v : Value) :
    (∀ n, h.ShownErrorsNest n v → h.Converts ((n + 1) * (maxDepth + 2)) v) ∧
      (h.ShownErrorsNest h.objects.size v ↔
        ¬ ∃ w, Relation.ReflTransGen h.Shows v w ∧ h.LeadsToRing w) ∧
      ((∃ n, h.ShownErrorsNest n v) ↔ h.ShownErrorsNest h.objects.size v) := by
  have hrings (n : Nat) (hnest : h.ShownErrorsNest n v) :
      ¬ ∃ w, Relation.ReflTransGen h.Shows v w ∧ h.LeadsToRing w := by
    rintro ⟨w, hw, hring⟩
    exact hring.not_nest n (hnest w hw)
  have hbounded (hnone : ¬ ∃ w, Relation.ReflTransGen h.Shows v w ∧ h.LeadsToRing w) :
      h.ShownErrorsNest h.objects.size v := by
    intro w hw
    by_contra hnest
    exact hnone ⟨w, hw, leadsToRing_of_not_nest hnest⟩
  refine ⟨fun n hnest => hnest.converts, ⟨hrings _, hbounded⟩, ⟨?_, fun hnest => ⟨_, hnest⟩⟩⟩
  rintro ⟨n, hnest⟩
  exact hbounded (hrings n hnest)

end Heap

def Ending.endsInErrorRing (o : ObjectRef) : Ending → Bool
  | .failed .endless m =>
    match (m.heap.object o).get? "message" with
    | some (.object o') => (m.heap.object o).isError && o' == o
    | _ => false
  | _ => false

/-- A run that ends in a ring of errors stopped in a state in which an error quotes itself. -/
theorem Ending.exists_of_endsInErrorRing {o : ObjectRef} {ending : Ending}
    (h : ending.endsInErrorRing o = true) : ∃ m, ending = .failed .endless m ∧ m.heap.Quotes o o := by
  unfold Ending.endsInErrorRing at h
  split at h
  · rename_i m
    split at h
    · rename_i o' hmessage
      rw [Bool.and_eq_true, beq_iff_eq] at h
      rw [h.2] at hmessage
      exact ⟨m, rfl, h.1, hmessage⟩
    · cases h
  · cases h

/-- An error that is its own message has no text, in whatever number of steps. A script that makes one and
asks for its text does not come to an end. -/
theorem error_ring_has_no_text :
    ∃ m o, Ending.of "const e = new Error('x'); e.message = e; String(e);" "" ⟨20000⟩ =
        .failed .endless m ∧
      m.heap.Quotes o o ∧ ∀ n, m.heap.textWithin n (.object o) = .error .endless := by
  have hends : (Ending.of "const e = new Error('x'); e.message = e; String(e);" "" ⟨20000⟩).endsInErrorRing
      ⟨0⟩ = true := by
    decide +kernel
  obtain ⟨m, hm, hring⟩ := Ending.exists_of_endsInErrorRing hends
  refine ⟨m, ⟨0⟩, hm, hring, fun n => ?_⟩
  have hchain : (List.replicate (n + 1) (⟨0⟩ : ObjectRef)).IsChain m.heap.Quotes :=
    List.isChain_replicate_of_rel _ hring
  have hcut := Heap.textWithin_endless_of_chain hchain
  rw [List.length_replicate] at hcut
  exact hcut

end Snippet.Script
