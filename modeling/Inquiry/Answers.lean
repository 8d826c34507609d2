import Inquiry.Value
set_option autoImplicit false

namespace Inquiry

structure Answers where
  entries : List (String × Answer)
  deriving DecidableEq, Repr

namespace Answers

def empty : Answers := ⟨[]⟩

def get? (answers : Answers) (question : String) : Option Answer :=
  (answers.entries.find? fun entry => entry.1 == question).map Prod.snd

def contains (answers : Answers) (question : String) : Bool := (answers.get? question).isSome

def erase (answers : Answers) (question : String) : Answers :=
  ⟨answers.entries.filter fun entry => entry.1 != question⟩

def insert (answers : Answers) (question : String) (answer : Answer) : Answers :=
  ⟨(question, answer) :: (answers.erase question).entries⟩

theorem get?_erase (answers : Answers) (question other : String) :
    (answers.erase question).get? other =
      if other = question then none else answers.get? other := by
  obtain ⟨entries⟩ := answers
  induction entries with
  | nil => simp [erase, get?]
  | cons entry rest ih =>
    simp only [erase, get?, List.filter_cons] at ih ⊢
    by_cases h : entry.1 = question <;> by_cases ho : entry.1 = other <;> grind

theorem get?_insert (answers : Answers) (question other : String) (answer : Answer) :
    (answers.insert question answer).get? other =
      if other = question then some answer else answers.get? other := by
  have h := get?_erase answers question other
  simp only [insert, get?, List.find?_cons] at h ⊢
  by_cases ho : question = other
  · simp [ho]
  · have hne : (question == other) = false := by simp [ho]
    simp only [hne, h, Ne.symm ho, if_false]

end Answers

end Inquiry
