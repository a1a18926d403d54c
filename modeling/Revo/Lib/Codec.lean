/-
  Revo.Lib.Codec

  Byte codecs.  An encoder writes a value; a decoder reads one from the
  front of a stream and returns the rest of it.  Two laws say that they
  match:

    * `RoundTrip P enc dec`: for a value with `P`, the decoder reads back
      what the encoder wrote, whatever follows it in the stream;
    * `Canonical enc dec`: every stream the decoder accepts begins with the
      encoding of the value it read, so no value has a second encoding.

  Both laws pass to two codecs read one after the other (`roundTrip_seq`,
  `canonical_seq`) and to a codec of values stored in another form
  (`roundTrip_comp`).
-/

import Mathlib.Logic.Basic

namespace Codec

variable {β ε α γ δ : Type}

/-- `dec` reads back what `enc` writes, for values with `P`. -/
def RoundTrip (P : α → Prop) (enc : α → List β) (dec : List β → Except ε (α × List β)) : Prop :=
  ∀ x, P x → ∀ rest, dec (enc x ++ rest) = .ok (x, rest)

/-- Every stream `dec` accepts starts with `enc` of what it read. -/
def Canonical (enc : α → List β) (dec : List β → Except ε (α × List β)) : Prop :=
  ∀ bs x rest, dec bs = .ok (x, rest) → bs = enc x ++ rest

/-- Read with `d₁`, then with `d₂` from what `d₁` left. -/
def seq (d₁ : List β → Except ε (α × List β)) (d₂ : List β → Except ε (γ × List β)) :
    List β → Except ε ((α × γ) × List β) :=
  fun bs => (d₁ bs).bind fun r => (d₂ r.2).map fun r' => ((r.1, r'.1), r'.2)

/-- Read with `dec` and store the value as `g` of it. -/
def map (g : α → δ) (dec : List β → Except ε (α × List β)) : List β → Except ε (δ × List β) :=
  fun bs => (dec bs).map fun r => (g r.1, r.2)

variable {P : α → Prop} {Q : γ → Prop} {enc₁ : α → List β} {enc₂ : γ → List β}
  {d₁ : List β → Except ε (α × List β)} {d₂ : List β → Except ε (γ × List β)}

theorem roundTrip_seq (h₁ : RoundTrip P enc₁ d₁) (h₂ : RoundTrip Q enc₂ d₂) :
    RoundTrip (fun p => P p.1 ∧ Q p.2) (fun p => enc₁ p.1 ++ enc₂ p.2) (seq d₁ d₂) := by
  rintro ⟨x, y⟩ ⟨hx, hy⟩ rest
  show (d₁ (enc₁ x ++ enc₂ y ++ rest)).bind _ = _
  rw [List.append_assoc, h₁ x hx]
  show (d₂ (enc₂ y ++ rest)).map _ = _
  rw [h₂ y hy]
  rfl

theorem canonical_seq (h₁ : Canonical enc₁ d₁) (h₂ : Canonical enc₂ d₂) :
    Canonical (fun p => enc₁ p.1 ++ enc₂ p.2) (seq d₁ d₂) := by
  rintro bs ⟨x, y⟩ rest h
  -- peel the two reads apart
  cases h₁r : d₁ bs with
  | error e =>
    rw [seq, h₁r] at h
    cases h
  | ok r =>
    rw [seq, h₁r] at h
    cases h₂r : d₂ r.2 with
    | error e =>
      rw [Except.bind, h₂r] at h
      cases h
    | ok r' =>
      rw [Except.bind, h₂r] at h
      cases h
      rw [h₁ bs r.1 r.2 h₁r, h₂ r.2 r'.1 r'.2 h₂r, List.append_assoc]

/-- A value stored as `f x` and read back through `g` round-trips when `g`
    undoes `f` on the values with `P`. -/
theorem roundTrip_comp {R : δ → Prop} {f : δ → α} {g : α → δ} (h : RoundTrip P enc₁ d₁)
    (hf : ∀ x, R x → P (f x)) (hg : ∀ x, R x → g (f x) = x) :
    RoundTrip R (fun x => enc₁ (f x)) (map g d₁) := by
  intro x hx rest
  show (d₁ (enc₁ (f x) ++ rest)).map _ = _
  rw [h (f x) (hf x hx) rest]
  show Except.ok (g (f x), rest) = _
  rw [hg x hx]

end Codec
